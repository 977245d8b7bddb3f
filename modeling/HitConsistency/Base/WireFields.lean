/- GID: HitConsistency/Base/WireFields
   digest: Numbers of variable width and fields behind their length: what is written is scanned. -/

import Mathlib.Algebra.GroupWithZero.Nat
import Mathlib.Data.List.Basic

set_option autoImplicit false
set_option relaxedAutoImplicit false

/-!
A number takes seven bits a byte. A field is its tag, the length of its value and the
value; a message is one field behind the other. Text has one byte for each character.
-/

namespace HitConsistency.Base.WireFields

section Varint

/-- Seven bits a byte, the lowest first; the upper bit says that more follow. -/
def varint : Nat → Nat → List UInt8
  | 0, n => [UInt8.ofNat n]
  | fuel + 1, n =>
      if n < 128 then [UInt8.ofNat n] else UInt8.ofNat (n % 128 + 128) :: varint fuel (n / 128)

def scanVarint : List UInt8 → Option (Nat × List UInt8)
  | [] => none
  | byte :: rest =>
      if byte.toNat < 128 then some (byte.toNat, rest)
      else (scanVarint rest).map fun (n, rest) => (byte.toNat - 128 + 128 * n, rest)

theorem scanVarint_varint (fuel n : Nat) (h : n < 128 ^ (fuel + 1)) (rest : List UInt8) :
    scanVarint (varint fuel n ++ rest) = some (n, rest) := by
  have hone : ∀ n, n < 128 → scanVarint ([UInt8.ofNat n] ++ rest) = some (n, rest) := by
    intro n hn
    have hbyte : (UInt8.ofNat n).toNat = n := by
      rw [UInt8.toNat_ofNat']
      omega
    simp [scanVarint, hbyte, hn]
  induction fuel generalizing n with
  | zero => exact hone n (by simpa using h)
  | succ fuel ih =>
    unfold varint
    split
    · rename_i hn
      exact hone n hn
    · have hbyte : (UInt8.ofNat (n % 128 + 128)).toNat = n % 128 + 128 := by
        rw [UInt8.toNat_ofNat']
        omega
      have hrest := ih (n / 128) (by rw [Nat.pow_succ] at h; omega)
      rw [List.cons_append, scanVarint, if_neg (by omega), hrest]
      simp only [Option.map_some, Option.some.injEq, Prod.mk.injEq, and_true, hbyte]
      omega

theorem length_varint (fuel n : Nat) : (varint fuel n).length ≤ fuel + 1 := by
  induction fuel generalizing n with
  | zero => exact Nat.le_refl 1
  | succ fuel ih =>
    unfold varint
    split
    · exact Nat.succ_le_succ (Nat.zero_le _)
    · exact Nat.succ_le_succ (ih _)

end Varint

section Text

def textBytes (text : List Char) : List UInt8 := text.map fun c => UInt8.ofNat c.toNat

def bytesText (bytes : List UInt8) : List Char := bytes.map fun byte => Char.ofNat byte.toNat

theorem length_textBytes (text : List Char) : (textBytes text).length = text.length :=
  List.length_map _

theorem bytesText_textBytes {text : List Char} (h : ∀ c ∈ text, c.toNat < 128) :
    bytesText (textBytes text) = text := by
  have hchar : ∀ c ∈ text, Char.ofNat (UInt8.ofNat c.toNat).toNat = c := by
    intro c hc
    have hlt := h c hc
    rw [UInt8.toNat_ofNat', Nat.mod_eq_of_lt (by omega), Char.ofNat_toNat]
  rw [bytesText, textBytes, List.map_map]
  exact (List.map_congr_left hchar).trans (List.map_id text)

end Text

section Fields

theorem mapM_map_of_forall {α β : Type*} {write : α → β} {read : β → Option α} {items : List α}
    (h : ∀ item ∈ items, read (write item) = some item) :
    (items.map write).mapM read = some items := by
  induction items with
  | nil => rfl
  | cons item rest ih =>
    rw [List.map_cons, List.mapM_cons, h item (by simp),
      ih fun other hother => h other (by simp [hother])]
    rfl

def writeField (field : UInt8 × List UInt8) : List UInt8 :=
  field.1 :: (varint 9 field.2.length ++ field.2)

def writeFields (fields : List (UInt8 × List UInt8)) : List UInt8 := fields.flatMap writeField

def scanField : List UInt8 → Option ((UInt8 × List UInt8) × List UInt8)
  | [] => none
  | tag :: rest =>
      (scanVarint rest).bind fun (length, rest) =>
        if length ≤ rest.length then some ((tag, rest.take length), rest.drop length) else none

/-- All fields up to the end of the message, of which there are at most as many. -/
def scanFields : Nat → List UInt8 → Option (List (UInt8 × List UInt8))
  | _, [] => some []
  | 0, _ :: _ => none
  | fuel + 1, byte :: bytes =>
      (scanField (byte :: bytes)).bind fun (field, rest) =>
        (scanFields fuel rest).map fun fields => field :: fields

private theorem scanField_writeField {field : UInt8 × List UInt8} (h : field.2.length < 128 ^ 10)
    (rest : List UInt8) : scanField (writeField field ++ rest) = some (field, rest) := by
  have hlength := scanVarint_varint 9 field.2.length h (field.2 ++ rest)
  rw [writeField, List.cons_append, List.append_assoc, scanField, hlength]
  simp

theorem scanFields_writeFields {fields : List (UInt8 × List UInt8)}
    (h : ∀ field ∈ fields, field.2.length < 128 ^ 10) {fuel : Nat} (hfuel : fields.length ≤ fuel) :
    scanFields fuel (writeFields fields) = some fields := by
  induction fields generalizing fuel with
  | nil => cases fuel <;> rfl
  | cons field fields ih =>
    obtain ⟨fuel, rfl⟩ := Nat.exists_eq_add_one_of_ne_zero (Nat.ne_zero_of_lt hfuel)
    have hfield := scanField_writeField (h field (by simp)) (writeFields fields)
    have hrest := ih (fun f hf => h f (by simp [hf])) (Nat.le_of_succ_le_succ hfuel)
    show scanFields (fuel + 1) (writeField field ++ writeFields fields) = _
    rw [writeField, List.cons_append] at hfield ⊢
    rw [scanFields, hfield]
    show (scanFields fuel (writeFields fields)).map _ = _
    rw [hrest]
    rfl

theorem length_le_writeFields (fields : List (UInt8 × List UInt8)) :
    fields.length ≤ (writeFields fields).length := by
  induction fields with
  | nil => exact Nat.zero_le _
  | cons field fields ih =>
    rw [writeFields, List.flatMap_cons, List.length_append, ← writeFields, List.length_cons]
    simp only [writeField, List.length_cons]
    omega

end Fields

end HitConsistency.Base.WireFields
