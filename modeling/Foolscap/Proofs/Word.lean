import Foolscap.Text.Number
import Mathlib.Algebra.GroupWithZero.Nat
import Mathlib.Algebra.Ring.Int.Defs

/-!
# Words as numbers

Addresses are natural numbers that fit into a word.  On them the operations of words are those of
numbers.
-/

namespace Foolscap

namespace Word

/-- The number of addresses that a word can tell apart.  No text, code or memory is that long. -/
abbrev limit : Nat := 2 ^ 63

theorem toNatClampNeg_ofNat {n : Nat} (h : n < limit) : (Int64.ofNat n).toNatClampNeg = n :=
  Int64.toNatClampNeg_ofNat_of_lt h

theorem ofNat_not_neg {n : Nat} (h : n < limit) : ¬ Int64.ofNat n < 0 := by
  rw [Int64.lt_iff_toInt_lt, Int64.toInt_ofNat_of_lt h]
  simp

theorem ofNat_inj {a b : Nat} (ha : a < limit) (hb : b < limit)
    (h : Int64.ofNat a = Int64.ofNat b) : a = b := by
  rw [← toNatClampNeg_ofNat ha, h, toNatClampNeg_ofNat hb]

theorem ofNat_lt_ofNat {a b : Nat} (ha : a < limit) (hb : b < limit) :
    Int64.ofNat a < Int64.ofNat b ↔ a < b := by
  rw [Int64.lt_iff_toInt_lt, Int64.toInt_ofNat_of_lt ha, Int64.toInt_ofNat_of_lt hb, Int.ofNat_lt]

theorem ofNat_le_ofNat {a b : Nat} (ha : a < limit) (hb : b < limit) :
    Int64.ofNat a ≤ Int64.ofNat b ↔ a ≤ b := by
  rw [Int64.le_iff_toInt_le, Int64.toInt_ofNat_of_lt ha, Int64.toInt_ofNat_of_lt hb, Int.ofNat_le]

/-- A word that is not negative is an address. -/
theorem exists_ofNat {w : Word} (h : ¬ w < 0) : ∃ n < limit, w = Int64.ofNat n := by
  rw [Int64.lt_iff_toInt_lt, Int64.toInt_zero, Int.not_lt] at h
  refine ⟨w.toInt.toNat, ?_, ?_⟩
  · have hlt : w.toInt < (limit : Int) := w.toInt_lt
    omega
  · rw [← Int64.ofInt_eq_ofNat, Int.toNat_of_nonneg h, Int64.ofInt_toInt]

/-- Every word is the word of some number. -/
theorem eq_ofNat (w : Word) : w = Int64.ofNat w.toBitVec.toNat := by
  rw [Int64.ofNat, BitVec.ofNat_toNat, BitVec.setWidth_eq]
  rfl

/-- The word of an address plus an offset is the word of the address that is meant. -/
theorem ofNat_add_ofInt {a b : Nat} {d : Int} (h : (a : Int) + d = b) :
    Int64.ofNat a + Int64.ofInt d = Int64.ofNat b := by
  rw [← Int64.ofInt_eq_ofNat, ← Int64.ofInt_eq_ofNat, ← Int64.ofInt_add, h]

/-- The word before that of an address other than 0. -/
theorem ofNat_pred {a : Nat} (h : 0 < a) : Int64.ofNat a - 1 = Int64.ofNat (a - 1) := by
  obtain ⟨b, rfl⟩ := Nat.exists_eq_add_of_lt h
  rw [Nat.zero_add, Nat.add_sub_cancel, Int64.ofNat_add, Int64.sub_eq_add_neg, Int64.add_assoc]
  exact Int64.add_zero _

theorem ofNat_succ (a : Nat) : Int64.ofNat a + 1 = Int64.ofNat (a + 1) := by
  rw [Int64.ofNat_add]
  rfl

end Word

namespace Text

/-- The integers that are words, by the bounds that `omega` knows. -/
theorem fitsWord_iff (n : Int) : fitsWord n ↔ -2 ^ 63 ≤ n ∧ n < 2 ^ 63 := by
  simp only [fitsWord, Bool.and_eq_true, decide_eq_true_eq]
  omega

theorem fitsWord_natCast {n : Nat} (h : n < Word.limit) : fitsWord n := by
  rw [Word.limit] at h
  rw [fitsWord_iff]
  omega

theorem fitsWord_toInt (w : Word) : fitsWord w.toInt :=
  (fitsWord_iff _).mpr ⟨w.le_toInt, w.toInt_lt⟩

end Text

end Foolscap
