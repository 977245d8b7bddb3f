/- GID: HitConsistency/Base/DecimalText
   digest: Integers as decimal text: what is printed is scanned back. -/

import Mathlib.Algebra.GroupWithZero.Nat
import Mathlib.Algebra.Ring.Int.Defs
import Mathlib.Data.List.Basic

set_option autoImplicit false
set_option relaxedAutoImplicit false

namespace HitConsistency.Base.DecimalText

/-- A number as `%d` prints it. -/
def decimal : Int → List Char
  | .ofNat n => Nat.toDigits 10 n
  | .negSucc n => '-' :: Nat.toDigits 10 (n + 1)

/-- A maximal run of digits, its value, and what follows it. -/
def scanDigits (text : List Char) : Option (Nat × List Char) :=
  let digits := text.takeWhile Char.isDigit
  if digits = [] then none
  else some (Nat.ofDigitChars 10 digits 0, text.dropWhile Char.isDigit)

def isSpace (c : Char) : Bool := c = ' ' || (9 ≤ c.toNat && c.toNat ≤ 13)

/-- A number as `%d` scans it: white space, a sign, digits. -/
def scanDecimal (text : List Char) : Option (Int × List Char) :=
  match text.dropWhile isSpace with
  | '-' :: rest => (scanDigits rest).map fun (n, rest) => (-(n : Int), rest)
  | '+' :: rest => (scanDigits rest).map fun (n, rest) => ((n : Int), rest)
  | rest => (scanDigits rest).map fun (n, rest) => ((n : Int), rest)

def Ends (text : List Char) : Prop := ∀ c ∈ text.head?, c.isDigit = false

theorem isDigit_of_mem_toDigits {n : Nat} {c : Char} (h : c ∈ Nat.toDigits 10 n) :
    c.isDigit = true :=
  Nat.isDigit_of_mem_toDigits (by decide) (by decide) h

private theorem takeWhile_run {digits rest : List Char} (h : ∀ c ∈ digits, c.isDigit = true)
    (hends : Ends rest) :
    (digits ++ rest).takeWhile Char.isDigit = digits ∧
      (digits ++ rest).dropWhile Char.isDigit = rest := by
  rw [List.takeWhile_append_of_pos h, List.dropWhile_append_of_pos h]
  cases rest with
  | nil => simp
  | cons c rest =>
    have hc := hends c rfl
    simp [hc]

theorem scanDigits_toDigits (n : Nat) {rest : List Char} (hends : Ends rest) :
    scanDigits (Nat.toDigits 10 n ++ rest) = some (n, rest) := by
  obtain ⟨htake, hdrop⟩ := takeWhile_run (fun _ => isDigit_of_mem_toDigits) hends
  unfold scanDigits
  rw [htake, hdrop, if_neg Nat.toDigits_ne_nil, Nat.ofDigitChars_ten_toDigits]

private theorem digit_plain {c : Char} (h : c.isDigit = true) :
    isSpace c = false ∧ c ≠ '-' ∧ c ≠ '+' := by
  refine ⟨?_, ?_, ?_⟩
  · have hrange : 48 ≤ c.toNat := by
      simp only [Char.isDigit, Bool.and_eq_true, decide_eq_true_eq] at h
      exact UInt32.le_iff_toNat_le.mp h.1
    have hblank : c ≠ ' ' := by
      rintro rfl
      revert hrange
      decide
    simp [isSpace, hblank]
    omega
  · rintro rfl
    revert h
    decide
  · rintro rfl
    revert h
    decide

theorem scanDecimal_decimal (n : Int) {rest : List Char} (hends : Ends rest) :
    scanDecimal (decimal n ++ rest) = some (n, rest) := by
  cases n with
  | ofNat n =>
    show scanDecimal (Nat.toDigits 10 n ++ rest) = _
    have hscan := scanDigits_toDigits n hends
    cases htext : Nat.toDigits 10 n with
    | nil => exact absurd htext Nat.toDigits_ne_nil
    | cons c digits =>
      have hc : c ∈ Nat.toDigits 10 n := by simp [htext]
      obtain ⟨hspace, hminus, hplus⟩ := digit_plain (isDigit_of_mem_toDigits hc)
      rw [htext] at hscan
      unfold scanDecimal
      rw [List.cons_append, List.dropWhile_cons_of_neg (by simp [hspace])]
      split
      · exact absurd (List.cons.inj ‹_›).1 hminus
      · exact absurd (List.cons.inj ‹_›).1 hplus
      · rw [← List.cons_append, hscan]
        rfl
  | negSucc n =>
    show scanDecimal ('-' :: (Nat.toDigits 10 (n + 1) ++ rest)) = _
    unfold scanDecimal
    rw [List.dropWhile_cons_of_neg (by decide)]
    show (scanDigits (Nat.toDigits 10 (n + 1) ++ rest)).map _ = _
    rw [scanDigits_toDigits (n + 1) hends]
    rfl

theorem mem_decimal {n : Int} {c : Char} (h : c ∈ decimal n) : c = '-' ∨ c.isDigit = true := by
  cases n with
  | ofNat n => exact .inr (isDigit_of_mem_toDigits h)
  | negSucc n =>
    rcases List.mem_cons.mp h with rfl | h
    · exact .inl rfl
    · exact .inr (isDigit_of_mem_toDigits h)

theorem length_decimal_le {n : Int} (hlow : -2 ^ 31 ≤ n) (hhigh : n < 2 ^ 31) :
    (decimal n).length ≤ 11 := by
  cases n with
  | ofNat n =>
    have hlen : (Nat.toDigits 10 n).length ≤ 10 :=
      (Nat.length_toDigits_le_iff (by decide) (by decide)).mpr (by simp at hhigh; omega)
    show (Nat.toDigits 10 n).length ≤ 11
    omega
  | negSucc n =>
    have hlen : (Nat.toDigits 10 (n + 1)).length ≤ 10 :=
      (Nat.length_toDigits_le_iff (by decide) (by decide)).mpr (by omega)
    show (Nat.toDigits 10 (n + 1)).length + 1 ≤ 11
    omega

end HitConsistency.Base.DecimalText
