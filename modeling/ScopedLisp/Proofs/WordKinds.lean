import Mathlib.Data.Nat.Digits.Lemmas
import ScopedLisp.Proofs.CheckedArithmetic
import ScopedLisp.Proofs.OverlongNumerals
import ScopedLisp.Proofs.TokenText

/-!
# The kinds of words

A word is a boolean, an integer or a symbol. Which one it is can be told from its text alone,
without the steps of the reader.

* `Numeral.positional`: the number that digits stand for by their places;
* `Numeral.Writes`: the texts of integers, with any number of leading zeros;
* `Numeral.writes_iff`: these are the numerals of source texts, and the value is theirs;
* `Term.IsNameText`, `Term.IsOther`: the texts that can be symbols, and those that have to be;
* `Term.wordKind_ofWord`: a text of few enough digits is read as what it is;
* **`Term.ofWord_kinds`**: what every text is read as, and what the decimal forms of the integers
  are read as.
-/

namespace ScopedLisp

/-! ## Numerals by place -/

namespace Numeral

/-- The number that digits stand for: each counts ten times as much for every digit after it. -/
def positional : List Char → Nat
  | [] => 0
  | c :: cs => (c.toNat - '0'.toNat) * 10 ^ cs.length + positional cs

/-- The text is at most one sign and then one or more decimal digits, and stands for the integer. -/
inductive Writes : List Char → Int → Prop
  | unsigned {cs : List Char} (hne : cs ≠ []) (hcs : ∀ c ∈ cs, c.isDigit = true) :
      Writes cs (positional cs)
  | plus {cs : List Char} (hne : cs ≠ []) (hcs : ∀ c ∈ cs, c.isDigit = true) :
      Writes ('+' :: cs) (positional cs)
  | minus {cs : List Char} (hne : cs ≠ []) (hcs : ∀ c ∈ cs, c.isDigit = true) :
      Writes ('-' :: cs) (-(positional cs : Int))

theorem magnitude_eq_positional (cs : List Char) :
    magnitude (cs.map fun c => c.toNat - '0'.toNat) = positional cs := by
  -- what was read before is shifted by all the digits that are still to come
  have haux : ∀ (cs : List Char) (n : Nat),
      (cs.map fun c => c.toNat - '0'.toNat).foldl (fun n d => 10 * n + d) n =
        n * 10 ^ cs.length + positional cs := by
    intro cs
    induction cs with
    | nil => simp [positional]
    | cons c cs ih =>
      intro n
      rw [List.map_cons, List.foldl_cons, ih, positional, List.length_cons, Nat.pow_succ]
      ring
  simpa [magnitude] using haux cs 0

theorem value_mk (negative : Bool) (cs : List Char) :
    value ⟨negative, cs.map fun c => c.toNat - '0'.toNat⟩ =
      if negative then -(positional cs : Int) else positional cs := by
  rw [value, magnitude_eq_positional]

/-- **The texts of integers are the numerals of source texts.** -/
theorem writes_iff {cs : List Char} {k : Int} :
    Writes cs k ↔ ∃ n, ofSource? cs = some n ∧ n.value = k := by
  constructor
  · intro h
    cases h with
    | unsigned hne hcs => exact ⟨_, ofSource?_of_isDigit hne hcs, value_mk false _⟩
    | plus hne hcs => exact ⟨_, ofSource?_eq_some_iff.2 ⟨hne, hcs, rfl⟩, value_mk false _⟩
    | minus hne hcs => exact ⟨_, ofSource?_eq_some_iff.2 ⟨hne, hcs, rfl⟩, value_mk true _⟩
  · rintro ⟨n, hn, rfl⟩
    obtain ⟨hne, hcs, rfl⟩ := ofSource?_eq_some_iff.1 hn
    rw [value_mk]
    revert hne hcs
    unfold splitSign
    split
    · exact fun hne hcs => .plus hne hcs
    · exact fun hne hcs => .minus hne hcs
    · exact fun hne hcs => .unsigned hne hcs

theorem length_digits_le {cs : List Char} {n : Numeral} (h : ofSource? cs = some n) :
    n.digits.length ≤ cs.countP Char.isDigit := by
  obtain ⟨-, hdigit, rfl⟩ := ofSource?_eq_some_iff.1 h
  have hrest : (splitSign cs).2.Sublist cs := by
    rcases splitSign_cases cs with hcs | hcs | hcs
    · rw [← hcs]
    · exact hcs ▸ List.sublist_cons_self ..
    · exact hcs ▸ List.sublist_cons_self ..
  calc ((splitSign cs).2.map fun c => c.toNat - '0'.toNat).length
      = (splitSign cs).2.length := List.length_map ..
    _ = (splitSign cs).2.countP Char.isDigit := (List.countP_eq_length.2 hdigit).symm
    _ ≤ cs.countP Char.isDigit := hrest.countP_le

end Numeral

/-! ## Words -/

namespace Term

open Builtin (inRange_iff_pow)
open Numeral (Writes)

/-- The text is not empty and holds neither blanks nor parentheses. -/
def IsNameText (text : String) : Prop :=
  text ≠ "" ∧ ∀ c ∈ text.toList, Text.isBlank c = false ∧ c ≠ '(' ∧ c ≠ ')'

/-- The text is neither a boolean nor an integer of 64 bits. -/
def IsOther (text : String) : Prop :=
  text ≠ "true" ∧ text ≠ "false" ∧
    ∀ n, Writes text.toList n → ¬ (-2 ^ 63 ≤ n ∧ n ≤ 2 ^ 63 - 1)

/-- What a text can be read as. -/
inductive WordKind (text : String) : Except WordFault Term → Prop
  | bool (b : Bool) (h : text = if b then "true" else "false") : WordKind text (.ok (.bool b))
  | int {n : Int} (h : Writes text.toList n) (hr : -2 ^ 63 ≤ n ∧ n ≤ 2 ^ 63 - 1) :
      WordKind text (.ok (.int n))
  | symbol (s : Symbol) (h : s.name = text) (hother : IsOther text) :
      WordKind text (.ok (.symbol s))
  | notWord (h : ¬ IsNameText text) (hother : IsOther text) :
      WordKind text (.error (.notWord text))

theorem isNameText_iff {text : String} : IsNameText text ↔ isWord text.toList = true := by
  rw [Token.isWord_iff, IsNameText, ne_eq, ne_eq, String.toList_eq_nil_iff]
  simp [isWordChar, and_assoc]

theorem wordKind_symbolOf {text : String} (h : IsOther text) : WordKind text (symbolOf text) := by
  unfold symbolOf
  cases hs : Symbol.ofName? text with
  | none =>
    rw [Symbol.ofName?_eq_none_iff, ← Bool.not_eq_true, ← isNameText_iff] at hs
    exact .notWord hs h
  | some s => exact .symbol s (Symbol.name_of_ofName?_eq_some hs) h

/-- **Every text of few enough digits is read as what it is.** -/
theorem wordKind_ofWord {text : String} (hdigits : text.toList.countP Char.isDigit ≤ maxDigits) :
    WordKind text (ofWord text) := by
  by_cases htrue : text = "true"
  · subst htrue
    exact .bool true rfl
  by_cases hfalse : text = "false"
  · subst hfalse
    exact .bool false rfl
  cases hn : Numeral.ofSource? text.toList with
  | none =>
    have hother : IsOther text := ⟨htrue, hfalse, fun k hk => by
      obtain ⟨n, hn', -⟩ := Numeral.writes_iff.1 hk
      cases hn.symm.trans hn'⟩
    have hsymbol : ofWord text = symbolOf text := by
      rw [ofWord, if_neg (by simpa using htrue), if_neg (by simpa using hfalse)]
      simp only [hn]
    exact hsymbol ▸ wordKind_symbolOf hother
  | some n =>
    have hshort := Nat.le_trans (Numeral.length_digits_le hn) hdigits
    rw [ofWord_of_ofSource? hn, if_neg (Nat.not_lt.2 hshort)]
    split_ifs with hr
    · exact .int (Numeral.writes_iff.2 ⟨n, hn, rfl⟩) (inRange_iff_pow.1 hr)
    · refine wordKind_symbolOf ⟨htrue, hfalse, fun k hk hk' => hr ?_⟩
      -- a text stands for one integer only
      obtain ⟨m, hm, rfl⟩ := Numeral.writes_iff.1 hk
      cases hn.symm.trans hm
      exact inRange_iff_pow.2 hk'

theorem exists_symbol_toString {n : Int} (hr : inRange n = false)
    (hn : (Nat.digits 10 n.natAbs).length ≤ maxDigits) :
    ∃ s : Symbol, s.name = toString n ∧ ofWord (toString n) = .ok (.symbol s) := by
  have hlen : (Numeral.decimal n.natAbs).length ≤ maxDigits := by
    rw [Numeral.decimal, List.length_map, Nat.length_toDigits_le_iff (by decide) (by decide)]
    exact (Nat.digits_length_le_iff (by decide) _).1 hn
  rw [← Numeral.value_decimal n] at hr
  exact (ofWord_eq_symbol_iff (Numeral.ofSource?_repr n) hr).2 hlen

/-- **The kinds of words.** A text of few enough digits is read as a boolean exactly if it is the
word for it, as an integer exactly if it stands for one of 64 bits, and else as the symbol of the
same name if it can be one. -/
theorem ofWord_kinds :
    (∀ text : String, text.toList.countP Char.isDigit ≤ maxDigits →
      (∀ b, ofWord text = .ok (.bool b) ↔ text = if b then "true" else "false") ∧
      (∀ n, ofWord text = .ok (.int n) ↔
        Writes text.toList n ∧ -2 ^ 63 ≤ n ∧ n ≤ 2 ^ 63 - 1) ∧
      (IsOther text →
        (IsNameText text → ∃ s : Symbol, s.name = text ∧ ofWord text = .ok (.symbol s)) ∧
        (¬ IsNameText text → ofWord text = .error (.notWord text)))) ∧
    ∀ n : Int,
      (-2 ^ 63 ≤ n ∧ n ≤ 2 ^ 63 - 1 → ofWord (toString n) = .ok (.int n)) ∧
      (¬ (-2 ^ 63 ≤ n ∧ n ≤ 2 ^ 63 - 1) → (Nat.digits 10 n.natAbs).length ≤ maxDigits →
        ∃ s : Symbol, s.name = toString n ∧ ofWord (toString n) = .ok (.symbol s)) := by
  refine ⟨fun text hdigits => ?_, fun n => ⟨fun hr => ofWord_toString (inRange_iff_pow.2 hr),
    fun hr hn => exists_symbol_toString (Bool.eq_false_iff.2 (mt inRange_iff_pow.1 hr)) hn⟩⟩
  have hkind := wordKind_ofWord hdigits
  refine ⟨fun b => ⟨fun h => ?_, ?_⟩, fun n => ⟨fun h => ?_, ?_⟩, fun hother => ?_⟩
  · rw [h] at hkind
    cases hkind with
    | bool _ h => exact h
  · rintro rfl
    cases b <;> rfl
  · rw [h] at hkind
    cases hkind with
    | int h hr => exact ⟨h, hr⟩
  · rintro ⟨h, hr⟩
    obtain ⟨m, hm, rfl⟩ := Numeral.writes_iff.1 h
    exact ofWord_of_numeral hm (Nat.le_trans (Numeral.length_digits_le hm) hdigits)
      (inRange_iff_pow.2 hr)
  · generalize ofWord text = result at hkind
    cases hkind with
    | bool b h => cases b <;> simp [IsOther, h] at hother
    | int h hr => exact absurd hr (hother.2.2 _ h)
    | symbol s h =>
      refine ⟨fun _ => ⟨s, h, rfl⟩, fun hname => absurd ?_ hname⟩
      rw [isNameText_iff, ← h]
      exact s.isWord_name
    | notWord h => exact ⟨fun hname => absurd hname h, fun _ => rfl⟩

/-- The least integer with leading zeros, the first one above the greatest with a sign, a digit of
another script, and two words. -/
theorem ofWord_kinds_edges :
    ofWord "-009223372036854775808" = .ok (.int (-2 ^ 63)) ∧
      (∃ s : Symbol, s.name = "+9223372036854775808" ∧
        ofWord "+9223372036854775808" = .ok (.symbol s)) ∧
      (∃ s : Symbol, s.name = "٣" ∧ ofWord "٣" = .ok (.symbol s)) ∧
      ofWord "1 2" = .error (.notWord "1 2") ∧
      ∃ s : Symbol, s.name = toString (-2 ^ 63 - 1 : Int) ∧
        ofWord (toString (-2 ^ 63 - 1 : Int)) = .ok (.symbol s) := by
  have hother : ∀ text : String, text ≠ "true" → text ≠ "false" →
      (Numeral.ofSource? text.toList).all (fun n => !inRange n.value) = true → IsOther text := by
    intro text htrue hfalse hnumeral
    refine ⟨htrue, hfalse, fun n hn hr => ?_⟩
    obtain ⟨m, hm, rfl⟩ := Numeral.writes_iff.1 hn
    rw [hm, Option.all_some, inRange_iff_pow.2 hr] at hnumeral
    cases hnumeral
  refine ⟨?_, ?_, ?_, ?_, ?_⟩
  · refine ((ofWord_kinds.1 _ (by decide +kernel)).2.1 _).2
      ⟨Numeral.writes_iff.2 ⟨_, rfl, ?_⟩, by decide, by decide⟩
    decide +kernel
  · exact ((ofWord_kinds.1 _ (by decide +kernel)).2.2
      (hother _ (by decide) (by decide) (by decide +kernel))).1
      (isNameText_iff.2 (by decide +kernel))
  · exact ((ofWord_kinds.1 _ (by decide +kernel)).2.2
      (hother _ (by decide) (by decide) (by decide +kernel))).1
      (isNameText_iff.2 (by decide +kernel))
  · exact ((ofWord_kinds.1 _ (by decide +kernel)).2.2
      (hother _ (by decide) (by decide) (by decide +kernel))).2
      (mt isNameText_iff.1 (by decide +kernel))
  · have hlt : (-2 ^ 63 - 1 : Int).natAbs < 10 ^ 20 := by decide
    have hpow : 10 ^ 20 ≤ 10 ^ maxDigits := Nat.pow_le_pow_right (by decide) (by decide)
    exact (ofWord_kinds.2 _).2 (by decide)
      ((Nat.digits_length_le_iff (by decide) _).2 (Nat.lt_of_lt_of_le hlt hpow))

end Term

end ScopedLisp
