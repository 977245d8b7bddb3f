/- GID: HitConsistency/Base/CrashFiles
   digest: File operations that a crash can cut short, and replacing a file by renaming. -/

import Mathlib.Data.List.Basic
import Mathlib.Logic.Function.Basic

set_option autoImplicit false
set_option relaxedAutoImplicit false

/-!
What a completed operation did survives a crash. A write that a crash cuts short may
have left any number of its first bytes; creating and renaming happen at once or not
at all.
-/

namespace HitConsistency.Base.CrashFiles

/-- The contents of the files by their paths. -/
abbrev FileSystem (π : Type*) : Type _ := π → Option (List UInt8)

section Contents

/-- Overwrite from an offset; a hole is filled with zeros. -/
def pwrite (content : List UInt8) (offset : Nat) (data : List UInt8) : List UInt8 :=
  content.take offset ++ List.replicate (offset - content.length) 0 ++ data ++
    content.drop (offset + data.length)

/-- Up to `size` bytes from an offset. -/
def pread (content : List UInt8) (offset size : Nat) : List UInt8 :=
  (content.drop offset).take size

theorem pwrite_end (content data : List UInt8) :
    pwrite content content.length data = content ++ data := by
  simp [pwrite]

theorem pread_front (front rest : List UInt8) : pread (front ++ rest) 0 front.length = front := by
  simp [pread]

theorem pread_back (front rest : List UInt8) :
    pread (front ++ rest) front.length rest.length = rest := by
  simp [pread]

end Contents

variable {π : Type*} [DecidableEq π]

inductive FileOp (π : Type*)
  | create (path : π)
  | write (path : π) (offset : Nat) (data : List UInt8)
  | sync (path : π)
  | rename (old new : π)

namespace FileOp

/-- A completed operation. `create` opens with `O_CREAT` and `O_TRUNC`. -/
def run (fs : FileSystem π) : FileOp π → FileSystem π
  | .create path => Function.update fs path (some [])
  | .write path offset data =>
      Function.update fs path ((fs path).map fun content => pwrite content offset data)
  | .sync _ => fs
  | .rename old new => Function.update (Function.update fs new (fs old)) old none

/-- An operation that a crash cuts short, with so many bytes written. -/
def cut (fs : FileSystem π) (bytes : Nat) : FileOp π → FileSystem π
  | .write path offset data => (FileOp.write path offset (data.take bytes)).run fs
  | _ => fs

/-- The operation concerns another file than the given one. -/
def Spares (path : π) : FileOp π → Prop
  | .create other | .write other _ _ | .sync other => other ≠ path
  | .rename old new => old ≠ path ∧ new ≠ path

private theorem run_spares {path : π} {op : FileOp π} (h : op.Spares path) (fs : FileSystem π) :
    op.run fs path = fs path := by
  cases op with
  | create other => exact Function.update_of_ne (Ne.symm h) _ _
  | write other offset data => exact Function.update_of_ne (Ne.symm h) _ _
  | sync other => rfl
  | rename old new =>
    have hold := Function.update_of_ne (Ne.symm h.1) none (Function.update fs new (fs old))
    exact hold.trans (Function.update_of_ne (Ne.symm h.2) _ _)

private theorem cut_spares {path : π} {op : FileOp π} (h : op.Spares path) (fs : FileSystem π)
    (bytes : Nat) : op.cut fs bytes path = fs path := by
  cases op with
  | write other offset data =>
    have hwrite : (FileOp.write other offset (data.take bytes)).Spares path := h
    exact run_spares hwrite fs
  | create other => rfl
  | sync other => rfl
  | rename old new => rfl

end FileOp

def runAll (fs : FileSystem π) (ops : List (FileOp π)) : FileSystem π := ops.foldl FileOp.run fs

/-- A crash behind some completed operations, inside of the next one. -/
structure CrashPoint where
  completed : Nat
  bytes : Nat
  deriving DecidableEq

def crashAt (fs : FileSystem π) (ops : List (FileOp π)) (point : CrashPoint) : FileSystem π :=
  let done := runAll fs (ops.take point.completed)
  match ops[point.completed]? with
  | some op => op.cut done point.bytes
  | none => done

private theorem runAll_spares {path : π} {ops : List (FileOp π)} (h : ∀ op ∈ ops, op.Spares path)
    (fs : FileSystem π) : runAll fs ops path = fs path := by
  induction ops generalizing fs with
  | nil => rfl
  | cons op ops ih =>
    have hrest := ih (fun op hop => h op (List.mem_cons_of_mem _ hop)) (op.run fs)
    exact hrest.trans (FileOp.run_spares (h op List.mem_cons_self) fs)

theorem crashAt_early {path tmp : π} {ops : List (FileOp π)} (h : ∀ op ∈ ops, op.Spares path)
    (fs : FileSystem π) {point : CrashPoint} (hpoint : point.completed ≤ ops.length) :
    crashAt fs (ops ++ [.rename tmp path]) point path = fs path := by
  have htake : (ops ++ [FileOp.rename tmp path]).take point.completed =
      ops.take point.completed := List.take_append_of_le_length hpoint
  have hdone : runAll fs (ops.take point.completed) path = fs path :=
    runAll_spares (fun op hop => h op (List.mem_of_mem_take hop)) fs
  unfold crashAt
  rw [htake]
  cases hop : (ops ++ [FileOp.rename tmp path])[point.completed]? with
  | none => exact hdone
  | some op =>
    rcases List.mem_append.mp (List.mem_of_getElem? hop) with hmem | hmem
    · exact (FileOp.cut_spares (h op hmem) _ _).trans hdone
    · -- The rename has not happened yet.
      rw [List.mem_singleton.mp hmem]
      exact hdone

/-- A file that is prepared under another name and then renamed is, whenever the crash
comes, the old one or the new one. -/
theorem crashAt_replace {path tmp : π} {ops : List (FileOp π)} (h : ∀ op ∈ ops, op.Spares path)
    (fs : FileSystem π) (point : CrashPoint) :
    crashAt fs (ops ++ [.rename tmp path]) point path = fs path ∨
      crashAt fs (ops ++ [.rename tmp path]) point path =
        runAll fs (ops ++ [.rename tmp path]) path := by
  by_cases hpoint : point.completed ≤ ops.length
  · exact .inl (crashAt_early h fs hpoint)
  · right
    have hall : (ops ++ [FileOp.rename tmp path]).take point.completed =
        ops ++ [.rename tmp path] := List.take_of_length_le (by simp; omega)
    have hnone : (ops ++ [FileOp.rename tmp path])[point.completed]? = none :=
      List.getElem?_eq_none (by simp; omega)
    unfold crashAt
    rw [hall, hnone]

end HitConsistency.Base.CrashFiles
