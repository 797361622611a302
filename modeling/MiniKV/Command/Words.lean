import MiniKV.Concrete.CommandParser

/-!
# The words of the language

A name is a row of capital letters, each of which may be written small, and a
numeral is a row of decimal digits with a value.  Both are stated by the codes
of their characters.  `uppercase`, `isDigit` and `decimal`, which the parser
computes with, are proved to decide them.
-/

namespace MiniKV.CommandParser

/-! ## Names -/

/-- The byte is the code of the capital or of its small letter. -/
def Letter (capital : Char) (byte : UInt8) : Prop :=
  byte.toNat = capital.toNat ∨ byte.toNat = capital.toLower.toNat

instance (capital : Char) (byte : UInt8) : Decidable (Letter capital byte) :=
  inferInstanceAs (Decidable (_ ∨ _))

/-- The text is the word with each letter in any case. -/
abbrev Spells (word : List Char) (text : Bytes) : Prop :=
  List.Forall₂ Letter word text

theorem capital_range {capital : Char} (hcapital : capital.isUpper = true) :
    65 ≤ capital.toNat ∧ capital.toNat ≤ 90 := by
  rw [Char.isUpper, decide_eq_true_eq, ge_iff_le, UInt32.le_iff_toNat_le,
    UInt32.le_iff_toNat_le] at hcapital
  exact hcapital

theorem toNat_toLower {capital : Char} (hcapital : capital.isUpper = true) :
    capital.toLower.toNat = capital.toNat + 32 := by
  have hrange := capital_range hcapital
  have hval : capital.val.toNat = capital.toNat := rfl
  have hdistance : ('a'.val - 'A'.val).toNat = 32 := by decide
  rw [Char.isUpper, decide_eq_true_eq] at hcapital
  rw [Char.toLower, dif_pos hcapital, Char.toNat, UInt32.toNat_add, hval,
    hdistance]
  exact Nat.mod_eq_of_lt (by omega)

theorem toUpper_eq_iff {capital : Char} (hcapital : capital.isUpper = true)
    (byte : UInt8) :
    toUpper byte = UInt8.ofNat capital.toNat ↔ Letter capital byte := by
  have hrange := capital_range hcapital
  have hcode : (UInt8.ofNat capital.toNat).toNat = capital.toNat :=
    UInt8.toNat_ofNat_of_lt (Nat.lt_of_le_of_lt hrange.2 (by decide))
  rw [Letter, toNat_toLower hcapital, ← UInt8.toNat_inj, hcode, toUpper]
  split
  next hsmall =>
    have hle : (32 : UInt8) ≤ byte :=
      UInt8.le_iff_toNat_le.mpr (Nat.le_trans (by decide) hsmall.1)
    rw [UInt8.toNat_sub_of_le _ _ hle]
    change byte.toNat - 32 = _ ↔ _
    omega
  · omega

/-- The names of the commands are recognised by their spelling. -/
theorem uppercase_eq_iff {word : List Char}
    (hcapitals : word.all Char.isUpper = true) (text : Bytes) :
    uppercase text = literal word ↔ Spells word text := by
  rw [uppercase, literal]
  induction word generalizing text with
  | nil => cases text <;> simp
  | cons capital word ih =>
      obtain ⟨hcapital, hothers⟩ := Bool.and_eq_true_iff.mp hcapitals
      cases text with
      | nil => simp
      | cons byte text =>
          rw [List.map_cons, List.map_cons, List.cons.injEq,
            toUpper_eq_iff hcapital, ih hothers]
          exact List.forall₂_cons.symm

theorem uppercase_of_spells {word : List Char} {text : Bytes}
    (hspells : Spells word text)
    (hcapitals : word.all Char.isUpper = true) :
    uppercase text = literal word :=
  (uppercase_eq_iff hcapitals text).mpr hspells

theorem spells_of_uppercase {word : List Char} {text : Bytes}
    (hupper : uppercase text = literal word)
    (hcapitals : word.all Char.isUpper = true) :
    Spells word text :=
  (uppercase_eq_iff hcapitals text).mp hupper

/-! ## Numerals -/

/-- The byte is the code of a decimal digit. -/
structure Digit (byte : UInt8) (value : ℕ) : Prop where
  bound : value ≤ 9
  code : byte.toNat = '0'.toNat + value

/-- Decimal digits that stand for a number, with any number of leading zeros. -/
inductive Numeral : Bytes → ℕ → Prop
  | digit {byte : UInt8} {value : ℕ} (hdigit : Digit byte value) :
      Numeral [byte] value
  | more {front : Bytes} {byte : UInt8} {number value : ℕ}
      (hfront : Numeral front number) (hdigit : Digit byte value) :
      Numeral (front ++ [byte]) (10 * number + value)

theorem isDigit_iff {byte : UInt8} :
    isDigit byte = true ↔ Digit byte (byte.toNat - 48) := by
  have hzero : '0'.toNat = 48 := rfl
  rw [isDigit, Bool.and_eq_true, decide_eq_true_eq, decide_eq_true_eq]
  constructor
  · rintro ⟨hlow, hhigh⟩
    exact ⟨by omega, by omega⟩
  · rintro ⟨hbound, hcode⟩
    omega

theorem Digit.isDigit {byte : UInt8} {value : ℕ} (hdigit : Digit byte value) :
    isDigit byte = true ∧ byte.toNat - 48 = value := by
  have hvalue : byte.toNat - 48 = value := by
    rw [hdigit.code]
    exact Nat.add_sub_cancel_left 48 value
  exact ⟨isDigit_iff.mpr (hvalue ▸ hdigit), hvalue⟩

theorem decimal_concat (front : Bytes) (byte : UInt8) :
    decimal (front ++ [byte]) = 10 * decimal front + (byte.toNat - 48) := by
  rw [decimal, decimal, List.foldl_concat]

theorem Numeral.ne_nil {text : Bytes} {number : ℕ}
    (htext : Numeral text number) : text ≠ [] := by
  cases htext with
  | digit => exact List.cons_ne_nil _ _
  | more => exact List.concat_ne_nil _ _

theorem Numeral.digits {text : Bytes} {number : ℕ}
    (htext : Numeral text number) : ∀ byte ∈ text, isDigit byte = true := by
  induction htext with
  | digit hdigit => simpa using hdigit.isDigit.1
  | more hfront hdigit ih =>
      rw [List.forall_mem_append]
      exact ⟨ih, by simpa using hdigit.isDigit.1⟩

/-- The parser computes the number that a numeral stands for. -/
theorem Numeral.number_eq {text : Bytes} {number : ℕ}
    (htext : Numeral text number) : decimal text = number := by
  induction htext with
  | @digit byte value hdigit =>
      have hvalue := hdigit.isDigit.2
      rw [← List.nil_append [byte], decimal_concat, hvalue]
      exact Nat.zero_add _
  | more hfront hdigit ih => rw [decimal_concat, ih, hdigit.isDigit.2]

/-- Every row of digits is a numeral. -/
theorem numeral_decimal {text : Bytes} (hne : text ≠ [])
    (hdigits : ∀ byte ∈ text, isDigit byte = true) :
    Numeral text (decimal text) := by
  induction text using List.reverseRecOn with
  | nil => exact absurd rfl hne
  | append_singleton front byte ih =>
      obtain ⟨hfront, hlast⟩ := List.forall_mem_append.mp hdigits
      have hdigit := isDigit_iff.mp (hlast byte (List.mem_singleton_self byte))
      rw [decimal_concat]
      rcases List.eq_nil_or_concat' front with rfl | ⟨_, _, rfl⟩
      · rw [show decimal [] = 0 from rfl, Nat.mul_zero, Nat.zero_add]
        exact .digit hdigit
      · exact .more (ih (List.concat_ne_nil _ _) hfront) hdigit

end MiniKV.CommandParser
