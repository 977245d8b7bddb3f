/- GID: HitConsistency/Application/FileTransfers
   digest: Reading and writing all of a range with calls that move only a part of it. -/

import HitConsistency.Base.SparseFile

set_option autoImplicit false
set_option relaxedAutoImplicit false

/-!
One call moves some of the bytes asked for, is interrupted, or fails. A loop goes on
until nothing is left; a loop that still waits for a call has no result, and neither has a
negative offset, which the buffer library takes for the position of the file.
-/

namespace HitConsistency.Application.FileTransfers

open HitConsistency.Base.CrashFiles
open HitConsistency.Base.SparseFile

/-- How a call ends: behind so many bytes at most, with `EINTR`, or with another error. -/
inductive Call
  | moves (bytes : Nat) | interrupted | failed
  deriving DecidableEq

/-- The loop of `file_pwrite`, and whether nothing is left. -/
def pwriteLoop : List Call → List UInt8 → Nat → List UInt8 → Option (List UInt8 × Bool)
  | _, content, _, [] => some (content, true)
  | [], _, _, _ :: _ => none
  | .interrupted :: calls, content, offset, left => pwriteLoop calls content offset left
  | .failed :: _, content, _, _ => some (content, false)
  | .moves n :: calls, content, offset, left =>
      pwriteLoop calls (writeAt content offset (left.take n)) (offset + (left.take n).length)
        (left.drop n)

/-- The file behind the call, and `size - left` or -1. -/
def filePwrite (calls : List Call) (content data : List UInt8) (offset : Int) :
    Option (List UInt8 × Int) :=
  if data = [] then some (content, 0)
  else if offset < 0 then none
  else (pwriteLoop calls content offset.toNat data).map fun (after, all) =>
    (after, if all then data.length else -1)

/-- The loop of `file_pread`. A call reads at least one byte unless the file ends here. -/
def preadLoop (content : List UInt8) :
    List Call → Nat → Nat → List UInt8 → Option (List UInt8 × Bool)
  | _, _, 0, portal => some (portal, true)
  | [], _, _ + 1, _ => none
  | .interrupted :: calls, offset, left, portal => preadLoop content calls offset left portal
  | .failed :: _, _, _, portal => some (portal, false)
  | .moves n :: calls, offset, left, portal =>
      let piece := pread content offset (min (n + 1) left)
      if piece = [] then some (portal, true)
      else
        preadLoop content calls (offset + piece.length) (left - piece.length) (portal ++ piece)

def filePread (calls : List Call) (content : List UInt8) (offset : Int) (size : Nat) :
    Option (List UInt8 × Int) :=
  if size = 0 then some ([], 0)
  else if offset < 0 then none
  else (preadLoop content calls offset.toNat size []).map fun (portal, ended) =>
    (portal, if ended then portal.length else -1)

/-- The bytes that the calls before the first failure move. -/
def moved : List Call → Nat
  | [] | .failed :: _ => 0
  | .interrupted :: calls => moved calls
  | .moves n :: calls => n + moved calls

section Write

variable {calls : List Call} {content after data left : List UInt8} {offset : Nat} {all : Bool}

private theorem take_append_take_drop (n k : Nat) :
    left.take n ++ (left.drop n).take k = left.take ((left.take n).length + k) := by
  rw [List.length_take]
  rcases Nat.le_total n left.length with hle | hle
  · rw [Nat.min_eq_left hle, List.take_add]
  · rw [Nat.min_eq_right hle, List.drop_eq_nil_of_le hle, List.take_nil, List.append_nil,
      List.take_of_length_le hle, List.take_of_length_le (Nat.le_add_right _ _)]

private theorem pwriteLoop_writes (h : pwriteLoop calls content offset left = some (after, all)) :
    ∃ k ≤ left.length, after = writeAt content offset (left.take k) ∧
      (all = true ↔ k = left.length) := by
  induction calls generalizing content offset left with
  | nil =>
    cases left with
    | nil =>
      cases h
      exact ⟨0, Nat.le_refl 0, by simp [writeAt], by simp⟩
    | cons => cases h
  | cons call calls ih =>
    cases left with
    | nil =>
      cases h
      exact ⟨0, Nat.le_refl 0, by simp [writeAt], by simp⟩
    | cons byte rest =>
      cases call with
      | interrupted => exact ih h
      | failed =>
        cases h
        exact ⟨0, Nat.zero_le _, by simp [writeAt], by simp⟩
      | moves n =>
        obtain ⟨k, hk, rfl, hall⟩ := ih h
        have hlengths : ((byte :: rest).take n).length + ((byte :: rest).drop n).length =
            (byte :: rest).length := by
          rw [← List.length_append, List.take_append_drop]
        refine ⟨((byte :: rest).take n).length + k, by omega, ?_, ?_⟩
        · rw [writeAt_append, take_append_take_drop]
        · rw [hall]
          omega

private theorem pwriteLoop_ends_iff :
    (∃ after, pwriteLoop calls content offset left = some (after, true)) ↔
      left.length ≤ moved calls := by
  induction calls generalizing content offset left with
  | nil =>
    cases left with
    | nil => simp [pwriteLoop]
    | cons => simp [pwriteLoop, moved]
  | cons call calls ih =>
    cases left with
    | nil => simp [pwriteLoop]
    | cons byte rest =>
      cases call with
      | interrupted => exact ih
      | failed => simp [pwriteLoop, moved]
      | moves n =>
        have hloop : pwriteLoop (.moves n :: calls) content offset (byte :: rest) =
            pwriteLoop calls (writeAt content offset ((byte :: rest).take n))
              (offset + ((byte :: rest).take n).length) ((byte :: rest).drop n) := rfl
        rw [hloop, ih, List.length_drop, moved]
        exact Nat.sub_le_iff_le_add'

theorem filePwrite_eq_iff {data : List UInt8} {offset : Int} (hoffset : 0 ≤ offset) :
    filePwrite calls content data offset = some (after, (data.length : Int)) ↔
      data.length ≤ moved calls ∧ after = writeAt content offset.toNat data := by
  unfold filePwrite
  split
  · rename_i hnil
    subst hnil
    simp [writeAt, eq_comm]
  · rename_i hne
    have hpos : data.length ≠ 0 := by simpa using hne
    have hends : (∃ after, pwriteLoop calls content offset.toNat data = some (after, true)) ↔
        data.length ≤ moved calls := pwriteLoop_ends_iff
    rw [if_neg (by omega), ← hends]
    constructor
    · intro h
      obtain ⟨⟨file, all⟩, hrun, heq⟩ := Option.map_eq_some_iff.mp h
      obtain ⟨rfl, hsize⟩ := Prod.mk.inj heq
      have hall : all = true := by
        cases all with
        | true => rfl
        | false => simp at hsize
      subst hall
      obtain ⟨k, -, rfl, hk⟩ := pwriteLoop_writes hrun
      refine ⟨⟨_, hrun⟩, ?_⟩
      rw [hk.mp rfl, List.take_length]
    · rintro ⟨⟨file, hrun⟩, rfl⟩
      obtain ⟨k, -, rfl, hk⟩ := pwriteLoop_writes hrun
      rw [hk.mp rfl, List.take_length] at hrun
      rw [hrun]
      rfl

private theorem filePwrite_failed {data : List UInt8} {offset : Int}
    (h : filePwrite calls content data offset = some (after, -1)) :
    ∃ k < data.length, after = writeAt content offset.toNat (data.take k) := by
  unfold filePwrite at h
  split at h
  · cases h
  · rename_i hne
    have hpos : 0 < data.length := List.length_pos_of_ne_nil hne
    split at h
    · cases h
    · obtain ⟨⟨file, all⟩, hrun, heq⟩ := Option.map_eq_some_iff.mp h
      obtain ⟨rfl, hsize⟩ := Prod.mk.inj heq
      obtain ⟨k, hle, rfl, hk⟩ := pwriteLoop_writes hrun
      refine ⟨k, ?_, rfl⟩
      by_contra hge
      rw [hk.mpr (by omega), if_pos rfl] at hsize
      omega

end Write

section Read

variable {calls : List Call} {content portal read : List UInt8} {offset left : Nat} {ended : Bool}

private theorem pread_continued (content : List UInt8) (offset : Nat) {n size : Nat}
    (h : n ≤ size) :
    pread content offset size = pread content offset n ++
      pread content (offset + (pread content offset n).length)
        (size - (pread content offset n).length) := by
  unfold pread
  rw [← List.drop_drop]
  rcases Nat.le_total n (content.drop offset).length with hle | hle
  · rw [List.length_take_of_le hle, ← List.take_add]
    congr 1
    omega
  · rw [List.take_of_length_le hle, List.drop_length, List.take_nil, List.append_nil,
      List.take_of_length_le (by omega)]

private theorem preadLoop_reads
    (h : preadLoop content calls offset left portal = some (read, ended)) :
    ∃ piece, read = portal ++ piece ∧ piece <+: pread content offset left ∧
      (ended = true → piece = pread content offset left) := by
  induction calls generalizing offset left portal with
  | nil =>
    cases left with
    | zero =>
      cases h
      exact ⟨[], by simp, List.nil_prefix, fun _ => by simp [pread]⟩
    | succ => cases h
  | cons call calls ih =>
    cases left with
    | zero =>
      cases h
      exact ⟨[], by simp, List.nil_prefix, fun _ => by simp [pread]⟩
    | succ left =>
      cases call with
      | interrupted => exact ih h
      | failed =>
        cases h
        exact ⟨[], by simp, List.nil_prefix, by simp⟩
      | moves n =>
        have hloop : preadLoop content (.moves n :: calls) offset (left + 1) portal =
            if pread content offset (min (n + 1) (left + 1)) = [] then some (portal, true)
            else
              preadLoop content calls
                (offset + (pread content offset (min (n + 1) (left + 1))).length)
                (left + 1 - (pread content offset (min (n + 1) (left + 1))).length)
                (portal ++ pread content offset (min (n + 1) (left + 1))) := rfl
        have hwhole := pread_continued content offset (Nat.min_le_right (n + 1) (left + 1))
        rw [hloop] at h
        set piece := pread content offset (min (n + 1) (left + 1)) with hpiece
        split at h
        · rename_i hnil
          cases h
          have hend : content.length ≤ offset := by
            have hlength : piece.length =
                min (min (n + 1) (left + 1)) (content.length - offset) := by
              rw [hpiece, pread, List.length_take, List.length_drop]
            rw [hnil, List.length_nil] at hlength
            omega
          refine ⟨[], by simp, List.nil_prefix, fun _ => ?_⟩
          rw [pread, List.drop_eq_nil_of_le hend, List.take_nil]
        · obtain ⟨rest, rfl, hprefix, hall⟩ := ih h
          refine ⟨piece ++ rest, by simp, ?_, fun hended => ?_⟩
          · rw [hwhole]
            exact (List.prefix_append_right_inj piece).mpr hprefix
          · rw [hwhole, ← hall hended]

theorem filePread_eq {offset : Int} {size : Nat} {n : Int} (hoffset : 0 ≤ offset)
    (h : filePread calls content offset size = some (read, n)) (hn : n ≠ -1) :
    read = pread content offset.toNat size ∧ n = read.length := by
  unfold filePread at h
  split at h
  · rename_i hzero
    cases h
    subst hzero
    simp [pread]
  · rw [if_neg (by omega)] at h
    obtain ⟨⟨portal, ended⟩, hrun, heq⟩ := Option.map_eq_some_iff.mp h
    obtain ⟨rfl, rfl⟩ := Prod.mk.inj heq
    cases ended with
    | false => exact absurd rfl hn
    | true =>
      obtain ⟨piece, rfl, -, hall⟩ := preadLoop_reads hrun
      exact ⟨hall rfl, rfl⟩

end Read

/-- Whichever way the system cuts the calls: a write returns its size exactly when enough
bytes are moved before the first failure; then every later read of the range returns the
data and all other bytes are as they were; a write that fails has left a first part. -/
theorem transfers_whole (calls : List Call) (content data : List UInt8) (offset : Int)
    (hoffset : 0 ≤ offset) :
    ((∃ after, filePwrite calls content data offset = some (after, (data.length : Int))) ↔
        data.length ≤ moved calls) ∧
      (∀ after, filePwrite calls content data offset = some (after, (data.length : Int)) →
        (∀ calls' portal n, filePread calls' after offset data.length = some (portal, n) →
          n ≠ -1 → portal = data ∧ n = data.length) ∧
        ∀ i : Nat, ¬ (offset ≤ i ∧ i < offset + data.length) →
          byteAt after i = byteAt content i) ∧
      ∀ after, filePwrite calls content data offset = some (after, -1) →
        ∃ k < data.length, after = writeAt content offset.toNat (data.take k) := by
  refine ⟨?_, fun after hwrite => ?_, fun after => filePwrite_failed⟩
  · constructor
    · rintro ⟨after, hwrite⟩
      exact ((filePwrite_eq_iff hoffset).mp hwrite).1
    · intro hmoved
      exact ⟨_, (filePwrite_eq_iff hoffset).mpr ⟨hmoved, rfl⟩⟩
  · obtain ⟨-, rfl⟩ := (filePwrite_eq_iff hoffset).mp hwrite
    refine ⟨fun calls' portal n hread hn => ?_, fun i hi => ?_⟩
    · obtain ⟨hdata, hlength⟩ := filePread_eq hoffset hread hn
      rw [pread_writeAt] at hdata
      subst hdata
      exact ⟨rfl, hlength⟩
    · rw [byteAt_writeAt, if_neg (by omega)]

theorem transfers_whole_split :
    filePwrite [.moves 1, .interrupted, .moves 7] [9] [1, 2, 3] 2 = some ([9, 0, 1, 2, 3], 3) ∧
      filePread [.interrupted, .moves 0, .moves 4] [9, 0, 1, 2, 3] 2 3 = some ([1, 2, 3], 3) ∧
      byteAt [9, 0, 1, 2, 3] 0 = 9 := by
  have hwrite : filePwrite [.moves 1, .interrupted, .moves 7] [9] [1, 2, 3] 2 =
      some ([9, 0, 1, 2, 3], 3) := by decide
  have hread : filePread [.interrupted, .moves 0, .moves 4] [9, 0, 1, 2, 3] 2 3 =
      some ([1, 2, 3], 3) := by decide
  obtain ⟨-, hall, -⟩ := transfers_whole [.moves 1, .interrupted, .moves 7] [9] [1, 2, 3] 2
    (by decide)
  exact ⟨hwrite, hread, (hall _ hwrite).2 0 (by decide)⟩

end HitConsistency.Application.FileTransfers
