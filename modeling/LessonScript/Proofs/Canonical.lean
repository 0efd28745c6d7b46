import LessonScript.Command.Render
import Mathlib.Data.List.Infix
import Mathlib.Data.List.TakeWhile

/-! # The canonical form of statements

Every statement with a shape of its own has a canonical form (`Statement.render`). A line in this
form, with any blanks before it, says the statement (`ofLine_render`), for the statements of which
this can be expected (`Statement.Plain`): names are words, values and operands are trimmed, bounds
fit, and a condition is not cut at a place inside its operands. -/

namespace LessonScript

/-! ### Blanks and words -/

namespace Text

variable {t margin : Text} {c : Char}

theorem trimStart_append (h : ∀ c ∈ margin, isBlank c = true) (t : Text) :
    (margin ++ t).trimStart = t.trimStart := List.dropWhile_append_of_pos h

theorem trimStart_cons (h : isBlank c = false) (t : Text) : trimStart (c :: t) = c :: t :=
  List.dropWhile_cons_of_neg (by simp [h])

theorem trimEnd_concat (h : isBlank c = false) (t : Text) : trimEnd (t ++ [c]) = t ++ [c] := by
  rw [trimEnd, List.reverse_append, List.reverse_singleton, List.singleton_append,
    List.dropWhile_cons_of_neg (by simp [h]), List.reverse_cons, List.reverse_reverse]

theorem trimEnd_concat_blank (h : isBlank c = true) (t : Text) :
    trimEnd (t ++ [c]) = trimEnd t := by
  rw [trimEnd, List.reverse_append, List.reverse_singleton, List.singleton_append,
    List.dropWhile_cons_of_pos h]
  rfl

theorem trimEnd_append (h : ∀ c ∈ margin, isBlank c = true) (t : Text) :
    (t ++ margin).trimEnd = t.trimEnd := by
  have hr : ∀ c ∈ margin.reverse, isBlank c = true := fun c hc => h c (List.mem_reverse.mp hc)
  rw [trimEnd, List.reverse_append, List.dropWhile_append_of_pos hr]
  rfl

theorem trim_append (h : ∀ c ∈ margin, isBlank c = true) (t : Text) :
    (margin ++ t).trim = t.trim := by rw [trim, trim, trimStart_append h]

theorem isBlank_space : isBlank ' ' = true := by decide

theorem trimStart_space (t : Text) : trimStart (' ' :: t) = t.trimStart :=
  List.dropWhile_cons_of_pos isBlank_space

theorem trim_space (t : Text) : trim (' ' :: t) = t.trim := by rw [trim, trim, trimStart_space]

theorem length_trimStart_le (t : Text) : t.trimStart.length ≤ t.length :=
  (List.dropWhile_sublist _).length_le

theorem isPrefix_trimEnd (t : Text) : t.trimEnd <+: t := by
  rw [← List.reverse_suffix, trimEnd, List.reverse_reverse]
  exact List.dropWhile_suffix _

theorem length_trimEnd_le (t : Text) : t.trimEnd.length ≤ t.length := (isPrefix_trimEnd t).length_le

/-- A trimmed text does not begin with a blank. -/
theorem trimStart_of_trim (h : t.trim = t) : t.trimStart = t := by
  refine (List.dropWhile_suffix _).eq_of_length_le ?_
  have hlen := length_trimEnd_le t.trimStart
  rwa [show t.trimStart.trimEnd = t from h] at hlen

theorem isBlank_of_trim_cons (h : trim (c :: t) = c :: t) : isBlank c = false := by
  by_contra hc
  have hs := trimStart_of_trim h
  have hlen := length_trimStart_le t
  rw [trimStart, List.dropWhile_cons_of_pos (by simpa using hc)] at hs
  have := congrArg List.length hs
  rw [List.length_cons, show t.dropWhile isBlank = t.trimStart from rfl] at this
  omega

/-- A trimmed text does not end with a blank. -/
theorem isBlank_of_trim_concat (h : trim (t ++ [c]) = t ++ [c]) : isBlank c = false := by
  by_contra hc
  have hs := trimStart_of_trim h
  have hlen := length_trimEnd_le t
  rw [trim, hs, trimEnd_concat_blank (by simpa using hc)] at h
  have := congrArg List.length h
  rw [List.length_append, List.length_singleton] at this
  omega

theorem trim_of_ends {d : Char} (hc : t.head? = some c) (hcb : isBlank c = false)
    (hd : t.getLast? = some d) (hdb : isBlank d = false) : t.trim = t := by
  obtain ⟨u, rfl⟩ := List.getLast?_eq_some_iff.mp hd
  obtain ⟨v, hv⟩ := List.head?_eq_some_iff.mp hc
  rw [trim, hv, trimStart_cons hcb, ← hv, trimEnd_concat hdb]

theorem isBlank_of_head?_trimStart (h : t.trimStart.head? = some c) : isBlank c = false := by
  have hnot := List.head?_dropWhile_not isBlank t
  rw [show (t.dropWhile isBlank).head? = some c from h] at hnot
  simpa using hnot

theorem isBlank_of_getLast?_trimEnd (h : t.trimEnd.getLast? = some c) : isBlank c = false := by
  rw [trimEnd, List.getLast?_reverse] at h
  exact isBlank_of_head?_trimStart (t := t.reverse) h

theorem trim_trim (t : Text) : t.trim.trim = t.trim := by
  rcases hh : t.trim.head? with _ | c
  · rw [List.head?_eq_none_iff.mp hh]
    rfl
  rcases hl : t.trim.getLast? with _ | d
  · rw [List.getLast?_eq_none_iff.mp hl]
    rfl
  have hc : t.trimStart.head? = some c := by
    obtain ⟨rest, hrest⟩ := isPrefix_trimEnd t.trimStart
    rw [← hrest, List.head?_append, show t.trimStart.trimEnd.head? = some c from hh]
    rfl
  exact trim_of_ends hh (isBlank_of_head?_trimStart hc) hl (isBlank_of_getLast?_trimEnd hl)

theorem trim_of_no_blank (h : ∀ c ∈ t, isBlank c = false) : t.trim = t := by
  rcases hh : t.head? with _ | c
  · rw [List.head?_eq_none_iff.mp hh]
    rfl
  rcases hl : t.getLast? with _ | d
  · rw [List.getLast?_eq_none_iff.mp hl]
    rfl
  exact trim_of_ends hh (h c (List.mem_of_head? hh)) hl (h d (List.mem_of_getLast? hl))

/-- The blanks around a trimmed text are trimmed away, and nothing else is. -/
theorem trim_margins {left right : Text} (hl : ∀ c ∈ left, isBlank c = true)
    (hr : ∀ c ∈ right, isBlank c = true) (hne : t ≠ []) (ht : t.trim = t) :
    (left ++ (t ++ right)).trim = t := by
  obtain ⟨c, u, rfl⟩ := List.exists_cons_of_ne_nil hne
  have hc : isBlank c = false := isBlank_of_trim_cons ht
  have hstart : ∀ v : Text, trim (c :: v) = trimEnd (c :: v) := by
    intro v
    rw [trim, trimStart_cons hc]
  rw [hstart] at ht
  rw [trim_append hl, List.cons_append, hstart, ← List.cons_append, trimEnd_append hr, ht]

theorem trim_cons_ne_nil (h : isBlank c = false) (t : Text) : trim (c :: t) ≠ [] := by
  rw [trim, trimStart_cons h, trimEnd, Ne, List.reverse_eq_nil_iff, List.dropWhile_eq_nil_iff]
  intro hall
  have hc := hall c (by simp)
  rw [h] at hc
  cases hc

/-- Nothing is left of a text of blanks, and of no other. -/
theorem trim_eq_nil_iff : t.trim = [] ↔ ∀ c ∈ t, isBlank c = true := by
  have hstart : t.trimStart = [] ↔ ∀ c ∈ t, isBlank c = true := List.dropWhile_eq_nil_iff
  rw [← hstart]
  constructor
  · intro h
    rcases hs : t.trimStart with _ | ⟨c, u⟩
    · rfl
    · have hc : isBlank c = false := isBlank_of_head?_trimStart (congrArg List.head? hs)
      have htrim : trim (c :: u) = t.trim := by rw [trim, trimStart_cons hc, ← hs, trim]
      exact absurd (htrim.trans h) (trim_cons_ne_nil hc u)
  · intro h
    rw [trim, h]
    rfl

theorem exists_trim_cons (h : isBlank c = false) (t : Text) : ∃ u, trim (c :: t) = c :: u := by
  have hp : trim (c :: t) <+: c :: t := by
    rw [trim, trimStart_cons h]
    exact isPrefix_trimEnd _
  rcases ht : trim (c :: t) with _ | ⟨d, u⟩
  · exact absurd ht (trim_cons_ne_nil h t)
  · rw [ht, List.cons_prefix_cons] at hp
    exact ⟨u, by rw [hp.1]⟩

/-- The pieces between separators hold no separator. -/
theorem separator_not_mem_splitOn (t : Text) : ∀ piece ∈ t.splitOn c, c ∉ piece := by
  induction t with
  | nil => simp [List.splitOn_nil]
  | cons d t ih =>
    rw [List.splitOn_cons_eq_if_modifyHead]
    split_ifs with hd
    · exact List.forall_mem_cons.mpr ⟨List.not_mem_nil, ih⟩
    · rcases hs : t.splitOn c with _ | ⟨piece, pieces⟩
      · exact absurd hs (List.splitOn_ne_nil c t)
      · rw [hs, List.forall_mem_cons] at ih
        have hne : c ≠ d := fun h => hd (beq_iff_eq.mpr h.symm)
        exact List.forall_mem_cons.mpr ⟨List.not_mem_cons_of_ne_of_not_mem hne ih.1, ih.2⟩

/-- A name of a variable. -/
structure IsWord (t : Text) : Prop where
  ne_nil : t ≠ []
  chars : ∀ c ∈ t, isWordChar c = true

end Text

theorem toNat_of_isWordChar {c : Char} (h : isWordChar c = true) :
    (48 ≤ c.toNat ∧ c.toNat ≤ 57) ∨ (65 ≤ c.toNat ∧ c.toNat ≤ 90) ∨ c.toNat = 95 ∨
      (97 ≤ c.toNat ∧ c.toNat ≤ 122) := by
  rw [isWordChar, Bool.or_eq_true, beq_iff_eq] at h
  rcases h with h | rfl
  · have h' : (((65 ≤ c.toNat ∧ c.toNat ≤ 90 : Bool) || (97 ≤ c.toNat && c.toNat ≤ 122 : Bool)) ||
      (48 ≤ c.toNat && c.toNat ≤ 57 : Bool)) = true := h
    simp only [Bool.or_eq_true, Bool.and_eq_true, decide_eq_true_eq] at h'
    omega
  · exact .inr (.inr (.inl rfl))

theorem isBlank_of_isWordChar {c : Char} (h : isWordChar c = true) : isBlank c = false := by
  have hc := toNat_of_isWordChar h
  by_contra hb
  simp only [isBlank, blankRanges, List.any_cons, List.any_nil, Bool.or_false, Bool.not_eq_false,
    Bool.or_eq_true, Bool.and_eq_true, decide_eq_true_eq] at hb
  omega

theorem ne_of_isWordChar {c d : Char} (h : isWordChar c = true) (hd : isWordChar d = false) :
    c ≠ d := by
  rintro rfl
  rw [h] at hd
  cases hd

namespace Text.IsWord

variable {w : Text}

theorem of_all (hne : w ≠ []) (h : w.all isWordChar = true) : w.IsWord :=
  ⟨hne, List.all_eq_true.mp h⟩

variable (hw : w.IsWord)
include hw

theorem word?_append {c : Char} (hc : isWordChar c = false) (t : Text) :
    word? (w ++ c :: t) = some (w, c :: t) := by
  rw [word?, List.takeWhile_append_of_pos hw.chars, List.dropWhile_append_of_pos hw.chars,
    List.takeWhile_cons_of_neg (by simp [hc]), List.dropWhile_cons_of_neg (by simp [hc]),
    List.append_nil]
  rcases w with _ | ⟨d, w⟩
  · exact absurd rfl hw.ne_nil
  · rfl

theorem exists_cons : ∃ c t, w = c :: t ∧ isWordChar c = true := by
  rcases w with _ | ⟨c, t⟩
  · exact absurd rfl hw.ne_nil
  · exact ⟨c, t, rfl, hw.chars c List.mem_cons_self⟩

theorem trimStart_append (t : Text) : (w ++ t).trimStart = w ++ t := by
  obtain ⟨c, u, rfl, hc⟩ := hw.exists_cons
  exact trimStart_cons (isBlank_of_isWordChar hc) (u ++ t)

end Text.IsWord

/-! ### Integers -/

namespace Range

theorem isDigit_of_mem_toDigits {n : Nat} : ∀ c ∈ Nat.toDigits 10 n, c.isDigit = true :=
  fun _ h => Nat.isDigit_of_mem_toDigits (by decide) (by decide) h

theorem leadingNat?_toDigits (n : Nat) : leadingNat? (Nat.toDigits 10 n) = some n := by
  have hv : Text.digitsValue (Nat.toDigits 10 n) = n := by
    rw [Text.digitsValue_eq, Nat.ofDigitChars_ten_toDigits]
  have ht : (Nat.toDigits 10 n).takeWhile Char.isDigit = Nat.toDigits 10 n :=
    List.takeWhile_eq_self_iff.mpr isDigit_of_mem_toDigits
  rw [leadingNat?, ht]
  rcases hd : Nat.toDigits 10 n with _ | ⟨c, t⟩
  · exact absurd hd Nat.toDigits_ne_nil
  · rw [hd] at hv
    exact congrArg some hv

theorem leadingInt?_of_isDigit {c : Char} (h : c.isDigit = true) (t : Text) :
    leadingInt? (c :: t) = (leadingNat? (c :: t)).map Int.ofNat := by
  unfold leadingInt?
  split
  · next heq =>
    obtain ⟨rfl, -⟩ := List.cons.inj heq
    cases h
  · next heq =>
    obtain ⟨rfl, -⟩ := List.cons.inj heq
    cases h
  · rfl

theorem leadingInt?_integerText (n : Int) : leadingInt? (integerText n) = some n := by
  unfold integerText
  split
  · next hn =>
    have habs : -Int.ofNat n.natAbs = n := by
      show -(n.natAbs : Int) = n
      omega
    rw [leadingInt?, leadingNat?_toDigits, Option.map_some, habs]
  · next hn =>
    have habs : Int.ofNat n.natAbs = n := by
      show (n.natAbs : Int) = n
      omega
    rcases hd : Nat.toDigits 10 n.natAbs with _ | ⟨c, t⟩
    · exact absurd hd Nat.toDigits_ne_nil
    · have hc : c.isDigit = true := isDigit_of_mem_toDigits c (hd ▸ List.mem_cons_self)
      rw [leadingInt?_of_isDigit hc, ← hd, leadingNat?_toDigits, Option.map_some, habs]

theorem mem_integerText {n : Int} {c : Char} (h : c ∈ integerText n) :
    c = '-' ∨ c.isDigit = true := by
  unfold integerText at h
  split at h
  · exact (List.mem_cons.mp h).imp_right fun h => isDigit_of_mem_toDigits c h
  · exact .inr (isDigit_of_mem_toDigits c h)

theorem comma_not_mem_integerText (n : Int) : ',' ∉ integerText n := by
  intro h
  rcases mem_integerText h with h | h
  · cases h
  · cases h

theorem isBlank_of_mem_integerText {n : Int} : ∀ c ∈ integerText n, isBlank c = false := by
  intro c h
  rcases mem_integerText h with rfl | h
  · decide
  · refine isBlank_of_isWordChar ?_
    simp only [isWordChar, Char.isAlphanum, h, Bool.or_true, Bool.true_or]

theorem integerText_ne_nil (n : Int) : integerText n ≠ [] := by
  unfold integerText
  split
  · simp
  · exact Nat.toDigits_ne_nil

theorem bound?_integerText {n : Int} (h : Fits n) : bound? (integerText n) = some n := by
  rw [bound?, leadingInt?_integerText, Option.filter_some, if_pos (by simpa using h)]

/-- The bounds of a range, separated by a comma and a space, are read back. -/
theorem ofText?_append {r : Range} (hs : Fits r.start) (he : Fits r.stop) :
    ofText? (integerText r.start ++ (", ".toList ++ integerText r.stop)) = some r := by
  have hsplit : (integerText r.start ++ (", ".toList ++ integerText r.stop)).splitOn ',' =
      [integerText r.start, ' ' :: integerText r.stop] := by
    have hcomma : ',' ∉ ' ' :: integerText r.stop := by
      simp [comma_not_mem_integerText]
    rw [← List.splitOn_eq_singleton hcomma]
    exact List.splitOn_append_cons_self_of_not_mem (comma_not_mem_integerText _) _
  have hstart : (integerText r.start).trim = integerText r.start :=
    Text.trim_of_no_blank isBlank_of_mem_integerText
  have hstop : Text.trim (' ' :: integerText r.stop) = integerText r.stop :=
    (Text.trim_space _).trans (Text.trim_of_no_blank isBlank_of_mem_integerText)
  have hne : (integerText r.start ++ (", ".toList ++ integerText r.stop)).trim ≠ [] := by
    rcases h : integerText r.start with _ | ⟨c, t⟩
    · exact absurd h (integerText_ne_nil _)
    · exact Text.trim_cons_ne_nil (isBlank_of_mem_integerText c (h ▸ List.mem_cons_self)) _
  rw [ofText?, if_neg hne, hsplit, List.map_cons, List.map_cons, List.map_nil, hstart, hstop, ofParts?,
    bound?_integerText hs, bound?_integerText he]
  rfl

end Range

/-! ### Conditions -/

namespace CompareOp

/-- An operator is written somewhere in a text. -/
def Occurs (t : Text) : Prop := ∃ op : CompareOp, op.symbol <:+: t

theorem mem_scanOrder (op : CompareOp) : op ∈ scanOrder := by cases op <;> decide

instance (t : Text) : Decidable (Occurs t) :=
  decidable_of_iff ((scanOrder.any fun op => decide (op.symbol <:+: t)) = true) <| by
    rw [List.any_eq_true]
    exact ⟨fun ⟨op, _, h⟩ => ⟨op, of_decide_eq_true h⟩,
      fun ⟨op, h⟩ => ⟨op, mem_scanOrder op, decide_eq_true h⟩⟩

theorem space_not_mem_symbol (op : CompareOp) : ' ' ∉ op.symbol := by cases op <;> decide

theorem symbol_ne_nil (op : CompareOp) : op.symbol ≠ [] := by cases op <;> decide

theorem front?_eq_none {t : Text} (h : ∀ op : CompareOp, ¬ op.symbol <+: t) : front? t = none := by
  rw [front?, List.findSome?_eq_none_iff]
  intro op _
  rcases hp : op.symbol.isPrefixOf? t with _ | rest
  · rfl
  · rw [List.isPrefixOf?_eq_some_iff_append_eq] at hp
    exact absurd ⟨rest, hp⟩ (h op)

/-- The longer operators are tried first, but a space ends an operator. -/
theorem front?_symbol (op : CompareOp) (t : Text) :
    front? (op.symbol ++ ' ' :: t) = some (op, ' ' :: t) := by cases op <;> rfl

/-- No operator begins within `pre`, where `rest` follows it. -/
def Clear (pre rest : Text) : Prop := ∀ u v, pre = u ++ v → v ≠ [] → front? (v ++ rest) = none

theorem clear_nil (rest : Text) : Clear [] rest := by
  intro u v huv hv
  exact absurd (List.append_eq_nil_iff.mp huv.symm).2 hv

theorem clear_cons {c : Char} {pre rest : Text} :
    Clear (c :: pre) rest ↔ front? (c :: (pre ++ rest)) = none ∧ Clear pre rest := by
  constructor
  · intro h
    exact ⟨h [] (c :: pre) rfl (List.cons_ne_nil c pre), fun u v huv => h (c :: u) v (by rw [huv]; rfl)⟩
  · rintro ⟨hc, h⟩ u v huv hv
    rcases u with _ | ⟨d, u⟩
    · obtain rfl : c :: pre = v := huv
      exact hc
    · exact h u v (List.cons.inj huv).2 hv

/-- The scan passes a text within which no operator begins. -/
theorem cutFrom_append {rest : Text} (pre seen : Text) (h : Clear pre rest) :
    cutFrom seen (pre ++ rest) = cutFrom (pre.reverse ++ seen) rest := by
  induction pre generalizing seen with
  | nil => rfl
  | cons c pre ih =>
    obtain ⟨hc, hpre⟩ := clear_cons.mp h
    rw [List.cons_append, cutFrom, hc, List.reverse_cons, List.append_assoc]
    exact ih (c :: seen) hpre

theorem cutFrom_of_front? {t rest : Text} {op : CompareOp} (h : front? t = some (op, rest))
    (seen : Text) : cutFrom seen t = some (seen.reverse, op, rest) := by
  rcases t with _ | ⟨c, t⟩
  · cases h
  · rw [cutFrom, h]

/-- No operator reaches over a space. -/
theorem prefix_of_space {op : CompareOp} {v t : Text} (h : op.symbol <+: v ++ ' ' :: t) :
    op.symbol <+: v := by
  rcases List.prefix_or_prefix_of_prefix h (List.prefix_append v _) with hv | ⟨u, hu⟩
  · exact hv
  · rcases u with _ | ⟨c, u⟩
    · exact ⟨[], by rw [List.append_nil, ← hu, List.append_nil]⟩
    · obtain ⟨x, hx⟩ := h
      rw [← hu, List.append_assoc, List.append_cancel_left_eq, List.cons_append] at hx
      obtain ⟨rfl, -⟩ := List.cons.inj hx
      exact absurd (hu ▸ List.mem_append_right v List.mem_cons_self) op.space_not_mem_symbol

theorem front?_of_not_occurs {v : Text} (h : ¬ Occurs v) (t : Text) :
    front? (v ++ ' ' :: t) = none :=
  front?_eq_none fun op hp => h ⟨op, (prefix_of_space hp).isInfix⟩

theorem Occurs.append_left {v : Text} (u : Text) (h : Occurs v) : Occurs (u ++ v) := by
  obtain ⟨op, hop⟩ := h
  exact ⟨op, hop.trans (List.suffix_append u v).isInfix⟩

theorem not_occurs_space {v : Text} (h : ¬ Occurs v) : ¬ Occurs (' ' :: v) := by
  rintro ⟨op, hop⟩
  rcases List.infix_cons_iff.mp hop with hp | hi
  · have hnil := List.prefix_nil.mp (prefix_of_space (v := []) hp)
    exact op.symbol_ne_nil hnil
  · exact h ⟨op, hi⟩

/-- Nothing is cut off a text without operators. -/
theorem cut?_of_not_occurs {t : Text} (h : ¬ Occurs t) : cut? t = none := by
  have hfront : Clear t [] := by
    intro u v hv _
    refine front?_eq_none fun op hp => ?_
    rw [List.append_nil] at hp
    exact h (hv ▸ Occurs.append_left u ⟨op, hp.isInfix⟩)
  have hpass := cutFrom_append t [] hfront
  rw [List.append_nil] at hpass
  rw [cut?, hpass]
  rfl

theorem cut?_symbol {pre : Text} (h : pre = [] ∨ ∃ v, pre = v ++ [' '] ∧ ¬ Occurs v)
    (op : CompareOp) (t : Text) :
    cut? (pre ++ (op.symbol ++ ' ' :: t)) = some (pre, op, ' ' :: t) := by
  have hfront : Clear pre (op.symbol ++ ' ' :: t) := by
    intro u v hv hne
    rcases h with rfl | ⟨w, rfl, hw⟩
    · exact absurd (List.append_eq_nil_iff.mp hv.symm).2 hne
    · obtain ⟨v', d, rfl⟩ := (List.eq_nil_or_concat' v).resolve_left hne
      rw [← List.append_assoc] at hv
      obtain ⟨rfl, hd⟩ := List.append_inj' hv rfl
      obtain rfl := List.singleton_inj.mp hd
      rw [List.append_assoc, List.singleton_append]
      exact front?_of_not_occurs (fun hv' => hw (hv'.append_left u)) _
  rw [cut?, cutFrom_append pre [] hfront, cutFrom_of_front? (front?_symbol op t), List.append_nil,
    List.reverse_reverse]

end CompareOp

/-- The operands are trimmed and hold no operator, and nothing in front of the operator can be taken
for the `=` of an assignment. -/
structure Condition.Plain (cond : Condition) : Prop where
  lhs_trim : cond.lhs.trim = cond.lhs
  rhs_trim : cond.rhs.trim = cond.rhs
  lhs_clean : ¬ CompareOp.Occurs cond.lhs
  rhs_clean : ¬ CompareOp.Occurs cond.rhs
  lhs_head : cond.lhs.head? ≠ some '='
  lhs_ne_nil : cond.op = .eq → cond.lhs ≠ []

/-! ### Statements -/

namespace Statement

open Text

/-- The canonical form of a statement. -/
def render : Statement → Text
  | skip => []
  | print expr => "print(".toList ++ (expr ++ [')'])
  | assign target value => target ++ (" = ".toList ++ value)
  | loop var range =>
    "for ".toList ++ (var ++ (" in range(".toList ++ (integerText range.start ++ (", ".toList ++
      (integerText range.stop ++ "):".toList)))))
  | branch cond =>
    "if ".toList ++ (cond.lhs ++ (' ' :: (cond.op.symbol ++ ' ' :: (cond.rhs ++ [':']))))
  | unrecognized text => text

theorem render_print (e : Text) : (print e).render = "print(".toList ++ (e ++ [')']) := rfl

theorem render_assign (w t : Text) : (assign w t).render = w ++ (" = ".toList ++ t) := rfl

theorem render_loop (w : Text) (r : Range) : (loop w r).render =
    "for ".toList ++ (w ++ (" in range(".toList ++ (integerText r.start ++ (", ".toList ++
      (integerText r.stop ++ "):".toList))))) := rfl

theorem render_branch (cond : Condition) : (branch cond).render =
    "if ".toList ++ (cond.lhs ++ (' ' :: (cond.op.symbol ++ ' ' :: (cond.rhs ++ [':'])))) := rfl

/-- The canonical form of the statement can be read back. -/
def Plain : Statement → Prop
  | skip => False
  | print _ => True
  | assign target value => target.IsWord ∧ value.trim = value
  | loop var range => var.IsWord ∧ Range.Fits range.start ∧ Range.Fits range.stop
  | branch cond => cond.Plain
  | unrecognized _ => False

theorem isWord_for : IsWord "for".toList := .of_all (by decide) (by decide)

theorem isWord_if : IsWord "if".toList := .of_all (by decide) (by decide)

theorem isWord_print : IsWord "print".toList := .of_all (by decide) (by decide)

section Shapes

variable {w t : Text}

theorem printed?_append (e : Text) : printed? ("print(".toList ++ (e ++ [')'])) = some e := by
  have h : "print(".toList.isPrefixOf? ("print(".toList ++ (e ++ [')'])) = some (e ++ [')']) := rfl
  rw [printed?, h, Option.bind_some]
  exact List.isSuffixOf?_eq_some_iff_append_eq.mpr rfl

/-- What begins with a word and a space is no print call. -/
theorem printed?_of_word (hw : w.IsWord) (t : Text) : printed? (w ++ ' ' :: t) = none := by
  rcases h : "print(".toList.isPrefixOf? (w ++ ' ' :: t) with _ | rest
  · rw [printed?, h]
    rfl
  · have happ := List.isPrefixOf?_eq_some_iff_append_eq.mp h
    have hr : "print".toList ++ '(' :: rest = w ++ ' ' :: t := happ
    have h₁ := isWord_print.word?_append (c := '(') (by decide) rest
    rw [hr, hw.word?_append (by decide)] at h₁
    simp at h₁

theorem assigned?_of_eq (hw : w.IsWord) (t : Text) :
    assigned? (w ++ ' ' :: '=' :: t) = some (w, t.trimStart) := by
  rw [assigned?, hw.word?_append (by decide)]
  rfl

/-- What begins with a word and a space is no assignment if no `=` follows. -/
theorem assigned?_of_head (hw : w.IsWord) (h : t.trimStart.head? ≠ some '=') :
    assigned? (w ++ ' ' :: t) = none := by
  have hn : ['='].isPrefixOf? t.trimStart = none := by
    rcases hr : ['='].isPrefixOf? t.trimStart with _ | rest
    · rfl
    · rw [List.isPrefixOf?_eq_some_iff_append_eq] at hr
      rw [← hr] at h
      exact absurd rfl h
  rw [assigned?, hw.word?_append (by decide)]
  simp only [Option.bind_eq_bind, Option.bind_some, trimStart_space, hn, Option.bind_none]

theorem loopHeader?_append (hw : w.IsWord) (args : Text) :
    loopHeader? ("for ".toList ++ (w ++ (" in range(".toList ++ (args ++ "):".toList)))) =
      some (w, args) := by
  have hfor : "for".toList.isPrefixOf?
      ("for ".toList ++ (w ++ (" in range(".toList ++ (args ++ "):".toList)))) =
        some (' ' :: (w ++ (" in range(".toList ++ (args ++ "):".toList)))) := rfl
  have hblank : afterBlanks? (' ' :: (w ++ (" in range(".toList ++ (args ++ "):".toList)))) =
      some (w ++ ' ' :: ("in range(".toList ++ (args ++ "):".toList))) := by
    rw [afterBlanks?, if_pos isBlank_space, hw.trimStart_append]
    rfl
  have hin : afterBlanks? (' ' :: ("in range(".toList ++ (args ++ "):".toList))) =
      some ("in range(".toList ++ (args ++ "):".toList)) := rfl
  have hin' : "in".toList.isPrefixOf? ("in range(".toList ++ (args ++ "):".toList)) =
      some (' ' :: ("range(".toList ++ (args ++ "):".toList))) := rfl
  have hrange : afterBlanks? (' ' :: ("range(".toList ++ (args ++ "):".toList))) =
      some ("range(".toList ++ (args ++ "):".toList)) := rfl
  have hrange' : "range(".toList.isPrefixOf? ("range(".toList ++ (args ++ "):".toList)) =
      some (args ++ "):".toList) := rfl
  have hargs : "):".toList.isSuffixOf? (args ++ "):".toList) = some args :=
    List.isSuffixOf?_eq_some_iff_append_eq.mpr rfl
  simp only [loopHeader?, Option.bind_eq_bind, hfor, Option.bind_some, hblank,
    hw.word?_append (c := ' ') (by decide), hin, hin', hrange, hrange', hargs]
  rfl

theorem branchHeader?_append (t : Text) :
    branchHeader? ("if ".toList ++ t) = [':'].isSuffixOf? t.trimStart := rfl

end Shapes

/-! ### Reading the canonical form -/

theorem ofLine_of_trim {line t : Text} {c : Char} (h : line.trim = c :: t) (hc : c ≠ '#') :
    ofLine line = ofContent (c :: t) := by
  unfold ofLine
  split
  · next heq => rw [h] at heq; cases heq
  · next heq =>
    rw [h] at heq
    exact absurd (List.cons.inj heq).1 hc
  · rw [h]

theorem ofContent_print (e : Text) : ofContent (print e).render = .ok (.print e) := by
  simp only [ofContent, render_print, printed?_append]

theorem ofContent_assign {w t : Text} (hw : w.IsWord) :
    ofContent (w ++ ' ' :: '=' :: t) = .ok (.assign w t.trimStart) := by
  simp only [ofContent, printed?_of_word hw, assigned?_of_eq hw]

theorem ofContent_loop {w : Text} {r : Range} (hw : w.IsWord) (hs : Range.Fits r.start)
    (he : Range.Fits r.stop) : ofContent (loop w r).render = .ok (.loop w r) := by
  have hp : printed? (loop w r).render = none := printed?_of_word isWord_for _
  have ha : assigned? (loop w r).render = none := by
    refine assigned?_of_head isWord_for ?_
    show (trimStart (w ++ _)).head? ≠ _
    rw [hw.trimStart_append]
    obtain ⟨c, t, rfl, hc⟩ := hw.exists_cons
    simpa using ne_of_isWordChar hc (by decide)
  have hl : loopHeader? (loop w r).render =
      some (w, integerText r.start ++ (", ".toList ++ integerText r.stop)) := by
    rw [← loopHeader?_append hw, render_loop, List.append_assoc, List.append_assoc]
  simp only [ofContent, hp, ha, hl, Range.ofText?_append hs he]

/-- The blank before an empty value is gone when the line is trimmed. -/
theorem exists_trim_assign {w t : Text} (hw : w.IsWord) (ht : t.trim = t) :
    ∃ u : Text, (assign w t).render.trim = w ++ ' ' :: '=' :: u ∧ u.trimStart = t := by
  rcases List.eq_nil_or_concat' t with rfl | ⟨v, d, rfl⟩
  · refine ⟨[], ?_, rfl⟩
    have hr : (assign w []).render = (w ++ [' ', '=']) ++ [' '] := by simp [render_assign]
    have he : (w ++ [' ', '=']) = (w ++ [' ']) ++ ['='] := by simp
    rw [hr, trim, List.append_assoc, hw.trimStart_append, ← List.append_assoc,
      trimEnd_concat_blank isBlank_space, he, trimEnd_concat (by decide), List.append_assoc,
      List.singleton_append]
  · have hr : (assign w (v ++ [d])).render = (w ++ (" = ".toList ++ v)) ++ [d] := by
      rw [render_assign, List.append_assoc, List.append_assoc]
    refine ⟨' ' :: (v ++ [d]), ?_, ?_⟩
    · rw [hr, trim, List.append_assoc, hw.trimStart_append, ← List.append_assoc,
        trimEnd_concat (isBlank_of_trim_concat ht)]
      simp
    · exact (trimStart_space _).trans (trimStart_of_trim ht)

/-- The text of a condition in front of its operator, once the blanks after `if` are gone. -/
def lead (cond : Condition) : Text := if cond.lhs = [] then [] else cond.lhs ++ [' ']

section Branch

variable {cond : Condition} (h : cond.Plain)
include h

theorem trimStart_lead (t : Text) :
    trimStart (cond.lhs ++ (' ' :: (cond.op.symbol ++ t))) =
      lead cond ++ (cond.op.symbol ++ t) := by
  unfold lead
  split
  · next hl =>
    rw [hl]
    cases cond.op <;> rfl
  · next hl =>
    rcases hc : cond.lhs with _ | ⟨c, u⟩
    · exact absurd hc hl
    · have hb := isBlank_of_trim_cons (hc ▸ h.lhs_trim)
      rw [List.cons_append, trimStart_cons hb, List.append_assoc]
      rfl

theorem trim_lead : (lead cond).trim = cond.lhs := by
  unfold lead
  split
  · next hl => exact hl.symm
  · next hl =>
    rcases hc : cond.lhs with _ | ⟨c, u⟩
    · exact absurd hc hl
    · have ht : trim (c :: u) = c :: u := hc ▸ h.lhs_trim
      have hb := isBlank_of_trim_cons ht
      rw [trim, List.cons_append, trimStart_cons hb, ← List.cons_append,
        trimEnd_concat_blank isBlank_space]
      rwa [trim, trimStart_cons hb] at ht

theorem ofText?_lead :
    Condition.ofText? (lead cond ++ (cond.op.symbol ++ ' ' :: cond.rhs)) = some cond := by
  have hlead : lead cond = [] ∨ ∃ v, lead cond = v ++ [' '] ∧ ¬ CompareOp.Occurs v := by
    unfold lead
    split
    · exact .inl rfl
    · exact .inr ⟨cond.lhs, rfl, h.lhs_clean⟩
  have hrest : CompareOp.cut? (' ' :: cond.rhs) = none :=
    CompareOp.cut?_of_not_occurs (CompareOp.not_occurs_space h.rhs_clean)
  have hrhs : trim (' ' :: cond.rhs) = cond.rhs :=
    (trim_space _).trans h.rhs_trim
  rw [Condition.ofText?, CompareOp.cut?_symbol hlead]
  simp only [Option.map_some, hrest, trim_lead h, hrhs]

/-- Nothing in front of the operator looks like the `=` of an assignment. -/
theorem head?_lead (t : Text) : (lead cond ++ (cond.op.symbol ++ t)).head? ≠ some '=' := by
  unfold lead
  split
  · next hl =>
    have hop : cond.op ≠ .eq := fun ho => h.lhs_ne_nil ho hl
    rcases ho : cond.op <;> first | exact absurd ho hop | simp [CompareOp.symbol]
  · next hl =>
    have hh := h.lhs_head
    rcases hc : cond.lhs with _ | ⟨c, u⟩
    · exact absurd hc hl
    · rw [hc] at hh
      exact hh

theorem ofContent_branch : ofContent (branch cond).render = .ok (.branch cond) := by
  have hp : printed? (branch cond).render = none := printed?_of_word isWord_if _
  have ha : assigned? (branch cond).render = none := by
    refine assigned?_of_head isWord_if ?_
    show (trimStart (cond.lhs ++ _)).head? ≠ _
    rw [trimStart_lead h]
    exact head?_lead h _
  have hl : loopHeader? (branch cond).render = none := rfl
  have hb : branchHeader? (branch cond).render =
      some (lead cond ++ (cond.op.symbol ++ ' ' :: cond.rhs)) := by
    rw [render_branch, branchHeader?_append, trimStart_lead h, List.isSuffixOf?_eq_some_iff_append_eq]
    simp
  simp only [ofContent, hp, ha, hl, hb, ofText?_lead h]

end Branch

/-- **A line in canonical form says its statement**, whatever blanks are before it. -/
theorem ofLine_render {margin : Text} (hm : ∀ c ∈ margin, isBlank c = true) {s : Statement}
    (h : s.Plain) : ofLine (margin ++ s.render) = .ok s := by
  cases s with
  | skip | unrecognized => exact h.elim
  | print e =>
    have ht : (print e).render.trim = (print e).render :=
      trim_of_ends (c := 'p') (d := ')') rfl (by decide)
        (by simp [render_print, List.getLast?_cons]) (by decide)
    rw [ofLine_of_trim ((trim_append hm _).trans ht) (by decide)]
    exact ofContent_print e
  | assign w t =>
    obtain ⟨u, hu, hut⟩ := exists_trim_assign h.1 h.2
    obtain ⟨c, v, hc, hcw⟩ := h.1.exists_cons
    have htrim : (margin ++ (assign w t).render).trim = c :: (v ++ ' ' :: '=' :: u) := by
      rw [trim_append hm, hu, hc, List.cons_append]
    rw [ofLine_of_trim htrim (ne_of_isWordChar hcw (by decide)), ← List.cons_append, ← hc,
      ofContent_assign h.1, hut]
  | loop w r =>
    have ht : (loop w r).render.trim = (loop w r).render :=
      trim_of_ends (c := 'f') (d := ':') rfl (by decide)
        (by simp [render_loop, List.getLast?_cons]) (by decide)
    rw [ofLine_of_trim ((trim_append hm _).trans ht) (by decide)]
    exact ofContent_loop h.1 h.2.1 h.2.2
  | branch cond =>
    have ht : (branch cond).render.trim = (branch cond).render :=
      trim_of_ends (c := 'i') (d := ':') rfl (by decide)
        (by simp [render_branch, List.getLast?_cons]) (by decide)
    rw [ofLine_of_trim ((trim_append hm _).trans ht) (by decide)]
    exact ofContent_branch h

theorem exists_render_cons {s : Statement} (h : s.Plain) :
    ∃ c t, s.render = c :: t ∧ isBlank c = false := by
  cases s with
  | skip | unrecognized => exact h.elim
  | print | loop | branch => exact ⟨_, _, rfl, by decide⟩
  | assign w t =>
    obtain ⟨c, u, rfl, hc⟩ := h.1.exists_cons
    exact ⟨c, _, rfl, isBlank_of_isWordChar hc⟩

end Statement

end LessonScript
