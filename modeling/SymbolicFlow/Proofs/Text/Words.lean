import Mathlib.Tactic.Common
import SymbolicFlow.Text.Hex

/-!
# Words and numerals

The text of a value is made of words and punctuation.  A word that is followed by punctuation, or by
nothing, can be told from what follows it (`word_append_inj`).  Decimal and hexadecimal numerals are
words, a minus sign is not, and different numbers have different numerals.
-/

set_option autoImplicit false

namespace SymbolicFlow.Text

def punctuation : List Char := ['(', ')', '[', ']', '@', '+', '-', '*', '/', '<', '>', ':']

def isWordChar (char : Char) : Bool := !punctuation.contains char

def IsWord (text : List Char) : Prop := ∀ char ∈ text, isWordChar char = true

/-- A word that stands before the text ends there. -/
def EndsWord (rest : List Char) : Prop := ∀ char, rest.head? = some char → isWordChar char = false

theorem isWordChar_of {property : Char → Bool} (none : punctuation.any property = false)
    {char : Char} (holds : property char = true) : isWordChar char = true := by
  by_contra mark
  have listed : char ∈ punctuation := by simpa [isWordChar] using mark
  exact List.any_eq_false.mp none char listed holds

theorem IsWord.of_isDigit {text : List Char} (digits : ∀ char ∈ text, char.isDigit = true) :
    IsWord text :=
  fun char member => isWordChar_of (by decide) (digits char member)

theorem takeWhile_append {word rest : List Char} (isWord : IsWord word) (ends : EndsWord rest) :
    (word ++ rest).takeWhile isWordChar = word := by
  rw [List.takeWhile_append_of_pos isWord]
  cases rest with
  | nil => simp
  | cons char rest => simp [ends char rfl]

theorem word_append_inj {word other rest otherRest : List Char} (isWord : IsWord word)
    (otherIsWord : IsWord other) (ends : EndsWord rest) (otherEnds : EndsWord otherRest)
    (same : word ++ rest = other ++ otherRest) : word = other ∧ rest = otherRest := by
  have sameWord : word = other := by
    rw [← takeWhile_append isWord ends, same, takeWhile_append otherIsWord otherEnds]
  subst sameWord
  exact ⟨rfl, List.append_cancel_left same⟩

/-! ## Numerals -/

section Digits

variable {base : Nat} (large : 1 < base) (small : base ≤ 16)
include large small

theorem isWord_toDigits (n : Nat) : IsWord (Nat.toDigits base n) := by
  have digit : ∀ m < 16, isWordChar (Nat.digitChar m) = true := by decide
  induction n using Nat.strongRecOn with
  | ind n ih =>
      rw [Nat.toDigits_eq_if large]
      split
      · intro char member
        rw [List.mem_singleton.mp member]
        exact digit n (by omega)
      · intro char member
        rcases List.mem_append.mp member with before | last
        · exact ih (n / base) (Nat.div_lt_self (by omega) large) char before
        · rw [List.mem_singleton.mp last]
          exact digit _ (Nat.lt_of_lt_of_le (Nat.mod_lt n (by omega)) small)

theorem toDigits_inj {m n : Nat} (same : Nat.toDigits base m = Nat.toDigits base n) : m = n := by
  have digit : ∀ a < 16, ∀ b < 16, Nat.digitChar a = Nat.digitChar b → a = b := by decide
  have unfolded : ∀ k, Nat.toDigits base k = if k < base then [k.digitChar]
      else Nat.toDigits base (k / base) ++ [(k % base).digitChar] :=
    fun k => Nat.toDigits_eq_if large
  have modLt : ∀ k, k % base < 16 := fun k => Nat.lt_of_lt_of_le (Nat.mod_lt k (by omega)) small
  have single : ∀ {k j : Nat}, [k.digitChar] ≠
      Nat.toDigits base (j / base) ++ [(j % base).digitChar] := by
    intro k j same
    exact Nat.toDigits_ne_nil (List.append_inj_left' ((List.nil_append _).trans same) rfl).symm
  induction m using Nat.strongRecOn generalizing n with
  | ind m ih =>
      rw [unfolded m, unfolded n] at same
      by_cases oneDigit : m < base
      · rw [if_pos oneDigit] at same
        split at same
        · exact digit m (by omega) n (by omega) (List.cons.inj same).1
        · exact absurd same single
      · rw [if_neg oneDigit] at same
        split at same
        · exact absurd same.symm single
        · obtain ⟨front, last⟩ := List.append_inj' same rfl
          have quotient := ih (m / base) (Nat.div_lt_self (by omega) large) front
          have remainder := digit _ (modLt m) _ (modLt n) (List.cons.inj last).1
          rw [← Nat.div_add_mod m base, ← Nat.div_add_mod n base, quotient, remainder]

end Digits

theorem isDigit_toDigits {n : Nat} : ∀ char ∈ Nat.toDigits 10 n, char.isDigit = true :=
  fun _ member => Nat.isDigit_of_mem_toDigits (by decide) (by decide) member

theorem toList_toString_of_nonneg {value : Int} (nonneg : 0 ≤ value) :
    (toString value).toList = Nat.toDigits 10 value.natAbs := by
  obtain ⟨n, rfl⟩ := Int.eq_ofNat_of_zero_le nonneg
  exact Nat.toList_repr

theorem toList_toString_of_neg {value : Int} (negative : value < 0) :
    (toString value).toList = '-' :: Nat.toDigits 10 value.natAbs := by
  obtain ⟨n, rfl⟩ := Int.eq_negSucc_of_lt_zero negative
  change ("-" ++ n.succ.repr).toList = _
  rw [String.toList_append, Nat.toList_repr]
  rfl

theorem toList_hex (word : UInt64) :
    (hex word).toList = '0' :: 'x' :: Nat.toDigits 16 word.toNat := by
  simp [hex, hexDigits, String.toList_append, String.toList_ofList]

theorem isWord_hex (word : UInt64) : IsWord (hex word).toList := by
  have digits := isWord_toDigits (by decide) (Nat.le_refl 16) word.toNat
  rw [toList_hex]
  intro char member
  rcases List.mem_cons.mp member with rfl | member
  · rfl
  · rcases List.mem_cons.mp member with rfl | member
    · rfl
    · exact digits char member

theorem hex_inj {word other : UInt64} (same : (hex word).toList = (hex other).toList) :
    word = other := by
  rw [toList_hex, toList_hex] at same
  have digits := (List.cons.inj (List.cons.inj same).2).2
  exact UInt64.toNat_inj.mp (toDigits_inj (by decide) (Nat.le_refl 16) digits)

end SymbolicFlow.Text
