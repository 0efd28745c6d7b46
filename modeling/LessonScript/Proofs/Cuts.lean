import LessonScript.Proofs.RoundTrip

/-! # Where conditions are cut

A condition is taken apart in one way (`Parts.Leftmost`): no operator begins before the one at which
it is cut, no longer operator begins there, and the right operand goes up to where the next operator
begins. Cutting finds these parts (`cut?_text`), and exactly if there is an operator.

The same is found by a scan of the bytes of the text: the bytes of the operators are those of no
other characters, so the scan stops at places where a character begins (`scan?_utf8`).

Main statement: `condition_leftmost`. -/

namespace LessonScript

/-! ### Parts -/

namespace CompareOp

/-- An operator is written at the front of a text. -/
def Begins (t : Text) : Prop := ∃ op : CompareOp, op.symbol <+: t

/-- No operator begins at a character of `pre`, where `rest` follows it. -/
def NoneWithin (pre rest : Text) : Prop := ∀ u v, pre = u ++ v → v ≠ [] → ¬ Begins (v ++ rest)

theorem front?_eq_none_iff {t : Text} : front? t = none ↔ ¬ Begins t := by
  constructor
  · rintro h ⟨op, rest, rfl⟩
    exact front?_ne_none op rest h
  · exact fun h => front?_eq_none fun op hop => h ⟨op, hop⟩

theorem clear_iff {pre rest : Text} : Clear pre rest ↔ NoneWithin pre rest := by
  simp only [Clear, NoneWithin, front?_eq_none_iff]

/-- The longer operators are tried first. -/
theorem front?_of_long {op : CompareOp} (h : op.symbol.length = 2) (t : Text) :
    front? (op.symbol ++ t) = some (op, t) := by
  cases op with
  | ge | le | eq | ne => rfl
  | gt | lt => cases h

/-- No longer operator begins where the operator does. -/
def Longest (op : CompareOp) (after : Text) : Prop :=
  ∀ op' : CompareOp, op'.symbol.length = 2 → op'.symbol <+: op.symbol ++ after → op = op'

/-- Two operators of one character at the same place are the same. -/
theorem eq_of_short {op op' : CompareOp} {t u : Text} (h : op.symbol.length ≠ 2)
    (h' : op'.symbol.length ≠ 2) (heq : op.symbol ++ t = op'.symbol ++ u) : op = op' := by
  have hhead : op.symbol.head? = op'.symbol.head? := by
    have hcongr := congrArg List.head? heq
    rwa [List.head?_append_of_ne_nil _ op.symbol_ne_nil,
      List.head?_append_of_ne_nil _ op'.symbol_ne_nil] at hcongr
  cases op <;> cases op' <;> first | rfl | exact absurd rfl h | exact absurd rfl h' | cases hhead

theorem front?_of_longest {op : CompareOp} {after : Text} (h : op.Longest after) :
    front? (op.symbol ++ after) = some (op, after) := by
  by_cases hop : op.symbol.length = 2
  · exact front?_of_long hop after
  obtain ⟨⟨op', rest⟩, hfront⟩ := Option.ne_none_iff_exists'.mp (front?_ne_none op after)
  have heq := front?_eq_some hfront
  have hsame : op = op' := by
    by_cases hop' : op'.symbol.length = 2
    · exact h op' hop' ⟨rest, heq.symm⟩
    · exact eq_of_short hop hop' heq
  subst hsame
  rw [hfront, List.append_cancel_left heq]

theorem longest_of_front? {op : CompareOp} {after : Text}
    (h : front? (op.symbol ++ after) = some (op, after)) : op.Longest after := by
  rintro op' hop' ⟨rest, heq⟩
  rw [← heq, front?_of_long hop'] at h
  exact (Prod.mk.inj (Option.some.inj h)).1.symm

theorem cut?_of_clear {pre after : Text} {op : CompareOp}
    (hpre : NoneWithin pre (op.symbol ++ after)) (hop : op.Longest after) :
    cut? (pre ++ (op.symbol ++ after)) = some (pre, op, after) := by
  rw [cut?, cutFrom_append pre [] (clear_iff.mpr hpre), cutFrom_of_front? (front?_of_longest hop),
    List.append_nil, List.reverse_reverse]

theorem clear_of_cut? {t pre after : Text} {op : CompareOp} (h : cut? t = some (pre, op, after)) :
    t = pre ++ (op.symbol ++ after) ∧ NoneWithin pre (op.symbol ++ after) ∧ op.Longest after := by
  obtain ⟨_, rest, rfl, rfl, hfront, hclear⟩ := clear_of_cutFrom [] h
  obtain rfl := front?_eq_some hfront
  exact ⟨rfl, clear_iff.mp hclear, longest_of_front? hfront⟩

/-- Without an operator the scan goes to the end. -/
theorem cut?_of_none {t : Text} (h : NoneWithin t []) : cut? t = none := by
  have hpass := cutFrom_append t [] (clear_iff.mpr h)
  rw [List.append_nil] at hpass
  rw [cut?, hpass]
  rfl

end CompareOp

namespace Condition

open CompareOp

/-- A text taken apart at an operator: what is before it, the operator, the operand after it and
what is dropped. -/
@[ext]
structure Parts where
  lhs : Text
  op : CompareOp
  rhs : Text
  rest : Text

namespace Parts

def text (p : Parts) : Text := p.lhs ++ (p.op.symbol ++ (p.rhs ++ p.rest))

/-- **The parts at the leftmost operator**, the longest one there, and up to the next. -/
structure Leftmost (p : Parts) : Prop where
  lhs_clear : NoneWithin p.lhs (p.op.symbol ++ (p.rhs ++ p.rest))
  op_longest : p.op.Longest (p.rhs ++ p.rest)
  rhs_clear : NoneWithin p.rhs p.rest
  rest_begins : p.rest = [] ∨ Begins p.rest

variable {p q : Parts}

theorem cut?_text (h : p.Leftmost) : cut? p.text = some (p.lhs, p.op, p.rhs ++ p.rest) :=
  cut?_of_clear h.lhs_clear h.op_longest

/-- The right operand is what comes before the next operator. -/
theorem rhs_eq (h : p.Leftmost) : p.rhs = match cut? (p.rhs ++ p.rest) with
    | some (before, _, _) => before
    | none => p.rhs ++ p.rest := by
  have hclear := h.rhs_clear
  rcases h.rest_begins with hnil | hbegins
  · rw [hnil] at hclear
    rw [hnil, List.append_nil, cut?_of_none hclear]
  · rcases hfront : front? p.rest with _ | ⟨op, after⟩
    · exact absurd hbegins (front?_eq_none_iff.mp hfront)
    · rw [cut?, cutFrom_append p.rhs [] (clear_iff.mpr hclear), cutFrom_of_front? hfront,
        List.append_nil, List.reverse_reverse]

theorem ofText?_text (h : p.Leftmost) : ofText? p.text = some ⟨p.lhs.trim, p.op, p.rhs.trim⟩ := by
  rw [ofText?, cut?_text h, Option.map_some]
  exact congrArg (fun rhs => some (Condition.mk p.lhs.trim p.op rhs.trim)) (rhs_eq h).symm

/-- **A text has at most one leftmost cut.** -/
theorem Leftmost.unique (hp : p.Leftmost) (hq : q.Leftmost) (h : p.text = q.text) : p = q := by
  have hcut := cut?_text hp
  rw [h, cut?_text hq] at hcut
  obtain ⟨hlhs, hcut⟩ := Prod.mk.inj (Option.some.inj hcut)
  obtain ⟨hop, hafter⟩ := Prod.mk.inj hcut
  have hrhs : p.rhs = q.rhs := by rw [rhs_eq hp, rhs_eq hq, hafter]
  have hrest : p.rest = q.rest := List.append_cancel_left (hrhs ▸ hafter.symm)
  exact Parts.ext hlhs.symm hop.symm hrhs hrest

/-- **A text with an operator has a leftmost cut.** -/
theorem exists_leftmost {t : Text} (h : Occurs t) : ∃ p : Parts, p.text = t ∧ p.Leftmost := by
  rcases hcut : cut? t with _ | ⟨lhs, op, after⟩
  · exact absurd h (not_occurs_of_cut?_eq_none hcut)
  obtain ⟨rfl, hlhs, hop⟩ := clear_of_cut? hcut
  rcases hcut' : cut? after with _ | ⟨rhs, op', after'⟩
  · have hrhs := clear_iff.mp (clear_of_cutFrom_eq_none [] hcut')
    refine ⟨⟨lhs, op, after, []⟩, by rw [text, List.append_nil], ?_, ?_, hrhs, .inl rfl⟩
    · rwa [List.append_nil]
    · rwa [List.append_nil]
  · obtain ⟨rfl, hrhs, -⟩ := clear_of_cut? hcut'
    exact ⟨⟨lhs, op, rhs, op'.symbol ++ after'⟩, rfl, hlhs, hop, hrhs,
      .inr ⟨op', List.prefix_append _ _⟩⟩

end Parts

theorem ofText?_eq_none_iff {t : Text} : ofText? t = none ↔ ¬ Occurs t := by
  rw [ofText?, Option.map_eq_none_iff]
  exact ⟨not_occurs_of_cut?_eq_none, cut?_of_not_occurs⟩

end Condition

/-! ### Bytes -/

namespace Text

/-- The bytes of a text in UTF-8. -/
def utf8 (t : Text) : List UInt8 := t.flatMap String.utf8EncodeChar

/-- The two parts of a text at a place given in bytes, if it is not inside a character. -/
def splitAtByte? : Text → Nat → Option (Text × Text)
  | t, 0 => some ([], t)
  | [], _ + 1 => none
  | c :: t, n + 1 =>
    if c.utf8Size ≤ n + 1 then
      (splitAtByte? t (n + 1 - c.utf8Size)).map fun (before, after) => (c :: before, after)
    else none

theorem utf8_cons (c : Char) (t : Text) : utf8 (c :: t) = String.utf8EncodeChar c ++ utf8 t :=
  List.flatMap_cons

theorem utf8_append (s t : Text) : utf8 (s ++ t) = utf8 s ++ utf8 t := List.flatMap_append

theorem length_utf8_cons (c : Char) (t : Text) :
    (utf8 (c :: t)).length = c.utf8Size + (utf8 t).length := by
  rw [utf8_cons, List.length_append, String.length_utf8EncodeChar]

/-- A text is taken apart after the bytes of its first part. -/
theorem splitAtByte?_append (s t : Text) : splitAtByte? (s ++ t) (utf8 s).length = some (s, t) := by
  induction s with
  | nil => rw [List.nil_append]; unfold splitAtByte?; rfl
  | cons c s ih =>
    have hpos : 0 < c.utf8Size := c.utf8Size_pos
    obtain ⟨n, hn⟩ : ∃ n, (utf8 (c :: s)).length = n + 1 :=
      ⟨(utf8 (c :: s)).length - 1, by rw [length_utf8_cons]; omega⟩
    have hle : c.utf8Size ≤ n + 1 := by rw [← hn, length_utf8_cons]; omega
    have hsub : n + 1 - c.utf8Size = (utf8 s).length := by rw [← hn, length_utf8_cons]; omega
    rw [hn, List.cons_append, splitAtByte?, if_pos hle, hsub, ih]
    rfl

/-- A character of ASCII is its byte, and no other character has a byte of ASCII. -/
theorem utf8EncodeChar_cases (c : Char) :
    (c.toNat < 0x80 ∧ String.utf8EncodeChar c = [UInt8.ofNat c.toNat]) ∨
      (0x80 ≤ c.toNat ∧ ∀ b ∈ String.utf8EncodeChar c, 0x80 ≤ b.toNat) := by
  have hbyte : ∀ n, 0x80 ≤ n % 256 → 0x80 ≤ (UInt8.ofNat n).toNat := fun n h => by
    rwa [UInt8.toNat_ofNat']
  by_cases hc : c.toNat < 0x80
  · exact .inl ⟨hc, if_pos (Nat.le_of_lt_succ hc)⟩
  · refine .inr ⟨Nat.le_of_not_lt hc, ?_⟩
    have hmany : ¬ c.val.toNat ≤ 0x7f := fun h => hc (Nat.lt_succ_of_le h)
    rw [String.utf8EncodeChar, if_neg hmany]
    split_ifs <;> simp only [List.forall_mem_cons]
    · exact ⟨hbyte _ (by omega), hbyte _ (by omega), List.forall_mem_nil _⟩
    · exact ⟨hbyte _ (by omega), hbyte _ (by omega), hbyte _ (by omega), List.forall_mem_nil _⟩
    · exact ⟨hbyte _ (by omega), hbyte _ (by omega), hbyte _ (by omega), hbyte _ (by omega),
        List.forall_mem_nil _⟩

/-- Texts of ASCII begin other texts as their bytes do. -/
theorem utf8_prefix_iff {s : Text} (hs : ∀ c ∈ s, c.toNat < 0x80) (t : Text) :
    utf8 s <+: utf8 t ↔ s <+: t := by
  induction s generalizing t with
  | nil => exact ⟨fun _ => List.nil_prefix, fun _ => List.nil_prefix⟩
  | cons c s ih =>
    obtain ⟨hc, hs⟩ := List.forall_mem_cons.mp hs
    have hce := ((utf8EncodeChar_cases c).resolve_right fun h => Nat.not_le.mpr hc h.1).2
    cases t with
    | nil => simp [hce, utf8]
    | cons d t =>
      rw [List.cons_prefix_cons, utf8_cons, utf8_cons, hce]
      rcases utf8EncodeChar_cases d with ⟨hd, hde⟩ | ⟨hd, hbytes⟩
      · rw [hde, List.singleton_append, List.singleton_append, List.cons_prefix_cons, ih hs]
        refine and_congr_left' ⟨fun h => ?_, fun h => h ▸ rfl⟩
        have hnat := congrArg UInt8.toNat h
        rw [UInt8.toNat_ofNat', UInt8.toNat_ofNat'] at hnat
        exact Char.toNat_inj.mp (by omega)
      · obtain ⟨b, bs, hb⟩ := List.exists_cons_of_ne_nil (String.utf8EncodeChar_ne_nil (c := d))
        have hlarge := hbytes b (hb ▸ List.mem_cons_self)
        rw [hb, List.singleton_append, List.cons_append, List.cons_prefix_cons]
        refine ⟨fun h => ?_, fun h => ?_⟩
        · have hnat := congrArg UInt8.toNat h.1
          rw [UInt8.toNat_ofNat'] at hnat
          omega
        · rw [h.1] at hc
          omega

end Text

namespace CompareOp

open Text

/-- The operator at the front of a list of bytes. -/
def frontByte? (bytes : List UInt8) : Option CompareOp :=
  scanOrder.find? fun op => op.symbol.utf8.isPrefixOf bytes

/-- The leftmost operator in a list of bytes, with its place. -/
def scan? : List UInt8 → Option (Nat × CompareOp)
  | [] => none
  | b :: bytes =>
    match frontByte? (b :: bytes) with
    | some op => some (0, op)
    | none => (scan? bytes).map fun (i, op) => (i + 1, op)

theorem toNat_of_mem_symbol {op : CompareOp} : ∀ c ∈ op.symbol, c.toNat < 0x80 := by
  have hall : op.symbol.all (fun c => c.toNat < 0x80) = true := by cases op <;> rfl
  exact fun c hc => of_decide_eq_true (List.all_eq_true.mp hall c hc)

theorem frontByte?_utf8 (t : Text) : frontByte? (utf8 t) = (front? t).map Prod.fst := by
  have hop : ∀ op : CompareOp,
      op.symbol.utf8.isPrefixOf (utf8 t) = (op.symbol.isPrefixOf? t).isSome := by
    intro op
    rw [Bool.eq_iff_iff, List.isPrefixOf_iff_prefix, utf8_prefix_iff toNat_of_mem_symbol,
      Option.isSome_iff_exists]
    exact exists_congr fun rest => List.isPrefixOf?_eq_some_iff_append_eq.symm
  rw [frontByte?, front?]
  induction scanOrder with
  | nil => rfl
  | cons op ops ih =>
    rw [List.find?_cons, List.findSome?_cons, hop]
    rcases op.symbol.isPrefixOf? t with _ | rest
    · exact ih
    · rfl

/-- No operator begins with a byte that is not of ASCII. -/
theorem frontByte?_of_large {b : UInt8} (hb : 0x80 ≤ b.toNat) (bytes : List UInt8) :
    frontByte? (b :: bytes) = none := by
  rw [frontByte?, List.find?_eq_none]
  intro op _ hop
  rw [List.isPrefixOf_iff_prefix] at hop
  obtain ⟨c, u, hc⟩ := List.exists_cons_of_ne_nil op.symbol_ne_nil
  have hsmall : c.toNat < 0x80 := toNat_of_mem_symbol c (hc ▸ List.mem_cons_self)
  have hce := ((utf8EncodeChar_cases c).resolve_right fun h => Nat.not_le.mpr hsmall h.1).2
  rw [hc, utf8_cons, hce, List.singleton_append, List.cons_prefix_cons] at hop
  have hnat := congrArg UInt8.toNat hop.1
  rw [UInt8.toNat_ofNat'] at hnat
  omega

/-- The scan passes bytes that are not of ASCII. -/
theorem scan?_append {bs : List UInt8} (h : ∀ b ∈ bs, 0x80 ≤ b.toNat) (bytes : List UInt8) :
    scan? (bs ++ bytes) = (scan? bytes).map fun (i, op) => (bs.length + i, op) := by
  induction bs with
  | nil => simp
  | cons b bs ih =>
    obtain ⟨hb, hbs⟩ := List.forall_mem_cons.mp h
    simp only [List.cons_append, scan?, frontByte?_of_large hb, ih hbs, Option.map_map]
    congr 1
    funext ⟨i, op⟩
    simp only [Function.comp_apply, List.length_cons, Prod.mk.injEq, and_true]
    omega

theorem cutFrom_seen (t : Text) : ∀ seen : Text, cutFrom seen t =
    (cut? t).map fun p => (seen.reverse ++ p.1, p.2) := by
  induction t with
  | nil => exact fun _ => rfl
  | cons c t ih =>
    intro seen
    rw [cut?, cutFrom, cutFrom]
    rcases front? (c :: t) with _ | ⟨op, after⟩
    · simp only [ih (c :: seen), ih [c], Option.map_map]
      congr 1
      funext p
      simp
    · simp

/-- The text before the leftmost operator grows with the text. -/
theorem cut?_cons (c : Char) (t : Text) : cut? (c :: t) = match front? (c :: t) with
    | some (op, after) => some ([], op, after)
    | none => (cut? t).map fun p => (c :: p.1, p.2) := by
  rw [cut?, cutFrom]
  rcases front? (c :: t) with _ | ⟨op, after⟩
  · exact cutFrom_seen t [c]
  · rfl

/-- **The scan of the bytes stops where a character begins**, at the place at which the text is
cut. -/
theorem scan?_utf8 (t : Text) :
    scan? (utf8 t) = (cut? t).map fun p => ((utf8 p.1).length, p.2.1) := by
  induction t with
  | nil => rfl
  | cons c t ih =>
    rw [cut?_cons]
    rcases utf8EncodeChar_cases c with ⟨hc, hce⟩ | ⟨hc, hbytes⟩
    · have hfront := frontByte?_utf8 (c :: t)
      rw [utf8_cons, hce, List.singleton_append] at hfront ⊢
      rw [scan?, hfront]
      rcases front? (c :: t) with _ | ⟨op, after⟩
      · simp only [Option.map_none, ih, Option.map_map]
        congr 1
        funext p
        simp only [Function.comp_apply, utf8_cons, hce, List.singleton_append, List.length_cons]
      · rfl
    · have hfront : front? (c :: t) = none := by
        refine front?_eq_none fun op hop => ?_
        obtain ⟨d, u, hd⟩ := List.exists_cons_of_ne_nil op.symbol_ne_nil
        have hsmall : d.toNat < 0x80 := toNat_of_mem_symbol d (hd ▸ List.mem_cons_self)
        rw [hd, List.cons_prefix_cons] at hop
        rw [hop.1] at hsmall
        omega
      rw [hfront, utf8_cons, scan?_append hbytes, ih, Option.map_map, Option.map_map]
      congr 1
      funext p
      simp only [Function.comp_apply, utf8_cons, List.length_append]

end CompareOp

namespace Condition

open CompareOp Text

/-- The condition written in a text, found by scanning bytes: there is no answer if a text would
have to be taken apart inside a character. -/
def scanned? (t : Text) : Option (Option Condition) :=
  match scan? t.utf8 with
  | none => some none
  | some (i, op) => do
    let (lhs, _) ← t.splitAtByte? i
    let (_, after) ← t.splitAtByte? (i + op.symbol.utf8.length)
    let rhs ← match scan? after.utf8 with
      | none => some after
      | some (j, _) => (after.splitAtByte? j).map Prod.fst
    return some ⟨lhs.trim, op, rhs.trim⟩

theorem scanned?_eq (t : Text) : scanned? t = some (ofText? t) := by
  rw [scanned?, scan?_utf8, ofText?]
  rcases hcut : cut? t with _ | ⟨before, op, after⟩
  · rfl
  obtain rfl := cut?_eq_some hcut
  have hafter := splitAtByte?_append (before ++ op.symbol) after
  rw [utf8_append, List.length_append, List.append_assoc] at hafter
  simp only [Option.map_some, splitAtByte?_append, hafter, Option.bind_eq_bind, Option.bind_some,
    scan?_utf8]
  rcases hcut' : cut? after with _ | ⟨rhs, op', rest⟩
  · rfl
  obtain rfl := cut?_eq_some hcut'
  simp only [Option.map_some, splitAtByte?_append, Option.bind_some]
  rfl

/-- **A condition is cut at its leftmost operator**, the longest one there. It cannot be read
exactly if there is no operator in it; otherwise it has exactly one leftmost cut, and the condition
is made of the trimmed operands of that. A scan of its bytes comes to the same, and never takes a
text apart inside a character. -/
theorem condition_leftmost (t : Text) :
    (ofText? t = none ↔ ¬ Occurs t) ∧
    (Occurs t → ∃! p : Parts, p.text = t ∧ p.Leftmost) ∧
    (∀ p : Parts, p.text = t → p.Leftmost → ofText? t = some ⟨p.lhs.trim, p.op, p.rhs.trim⟩) ∧
    scanned? t = some (ofText? t) := by
  refine ⟨ofText?_eq_none_iff, fun h => ?_, ?_, scanned?_eq t⟩
  · obtain ⟨p, hp, hleft⟩ := Parts.exists_leftmost h
    exact ⟨p, ⟨hp, hleft⟩, fun q ⟨hq, hq'⟩ => hq'.unique hleft (hq.trans hp.symm)⟩
  · rintro p rfl hp
    exact Parts.ofText?_text hp

/-- What is left of a run of signs ends the right operand. -/
example : ofText? "a >>= b".toList = some ⟨['a'], .gt, []⟩ := by decide

end Condition

end LessonScript
