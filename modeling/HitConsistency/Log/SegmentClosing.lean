/- GID: HitConsistency/Log/SegmentClosing
   digest: When the counter of a segment says full, over appends, truncations and reloads. -/

import HitConsistency.Base.GuardedRuns
import HitConsistency.Log.SegmentReload

set_option autoImplicit false
set_option relaxedAutoImplicit false

namespace HitConsistency.Log.SegmentClosing

open HitConsistency.Base.GuardedRuns
open HitConsistency.Log.Entry
open HitConsistency.Log.MemoryLog
open HitConsistency.Log.SegmentContents
open HitConsistency.Log.SegmentFile
open HitConsistency.Log.SegmentReload

inductive Event
  | append (entry : LogEntry)
  | truncate (lastIndexKept : Int)
  | prepareToClose
  | reload

/-- A refused append leaves the segment as it is; a load makes a new segment of the file. -/
def step (codec : ConfigurationCodec) (seg : Segment) : Event → Option Segment
  | .append entry => (seg.append codec entry).map Prod.fst
  | .truncate lastIndexKept => seg.truncate lastIndexKept
  | .prepareToClose => some seg.prepareToClose
  | .reload => ((refile seg).load codec .new).map Prod.fst

def NoHole (seg : Segment) : Prop :=
  ∀ i, seg.firstIndex ≤ i → i ≤ seg.lastIndex → seg.getTerm i ≠ 0

/-- At every state of the run the counter says full exactly without a hole, and an append
to a segment that waits for its closing closes it exactly if it leaves no hole. -/
def ClosesWhenFull (codec : ConfigurationCodec) (first : Int) (events : List Event) : Prop :=
  ∀ pre post seg, events = pre ++ post → runEvents (step codec) (.new first) pre = some seg →
    (seg.isFullfilled = true ↔ NoHole seg) ∧
      ∀ entry rest next, post = .append entry :: rest → seg.isOpen = true →
        seg.pendingForClosing = true → seg.append codec entry = some (next, true) →
        (next.isOpen = false ↔ NoHole next)

/-- An append that the segment takes writes a valid term under an index without a live
entry, and a load finds nothing live. -/
def CountsOnce (codec : ConfigurationCodec) (seg : Segment) : Event → Prop
  | .append entry => seg.isOpen = true → (dataOf codec entry).join.isSome = true →
      entry.id.term ≠ 0 ∧ seg.getTerm entry.id.index = 0
  | .reload => heldIndexes seg = ∅
  | .truncate _ | .prepareToClose => True

instance countsOnceDecidable (codec : ConfigurationCodec) (seg : Segment) :
    ∀ event, Decidable (CountsOnce codec seg event)
  | .append _ => inferInstanceAs (Decidable (_ → _ → _ ∧ _))
  | .reload => inferInstanceAs (Decidable (_ = _))
  | .truncate _ => inferInstanceAs (Decidable True)
  | .prepareToClose => inferInstanceAs (Decidable True)

variable {codec : ConfigurationCodec} {seg : Segment}

structure Tallied (codec : ConfigurationCodec) (seg : Segment) : Prop where
  sound : Sound codec seg
  filed : Filed codec seg
  counted : Counted seg

private theorem tallied_new (codec : ConfigurationCodec) (first : Int) : Tallied codec
    (.new first) :=
  ⟨sound_new codec first, filed_new codec first, counted_new first⟩

theorem Tallied.isFullfilled_iff (h : Tallied codec seg) :
    seg.isFullfilled = true ↔ NoHole seg := by
  constructor
  · intro hfull i hlow hhigh
    exact h.counted.full hfull hlow hhigh
  · intro hall
    have hheld : heldIndexes seg = rangeIndexes seg := by
      ext i
      rw [h.sound.mem_heldIndexes, mem_rangeIndexes]
      exact ⟨h.sound.getTerm_range, fun hrange => hall i hrange.1 hrange.2⟩
    have hcount := h.counted
    have hrange := h.sound.range
    rw [Counted, hheld, card_rangeIndexes] at hcount
    simp only [Segment.isFullfilled, decide_eq_true_eq]
    omega

theorem Tallied.append {next : Segment} {entry : LogEntry} (h : Tallied codec seg)
    (hnew : entry.id.term ≠ 0 ∧ seg.getTerm entry.id.index = 0)
    (happend : seg.append codec entry = some (next, true)) : Tallied codec next :=
  ⟨(sound_append h.sound happend).1, filed_append h.filed happend,
    counted_append h.sound h.counted hnew.2 hnew.1 happend⟩

theorem Tallied.truncate {next : Segment} {kept : Int} (h : Tallied codec seg)
    (htruncate : seg.truncate kept = some next) : Tallied codec next := by
  by_cases hkept : kept < seg.lastIndex
  · have hfirst : seg.firstIndex ≤ kept + 1 := by
      by_contra hlt
      rw [Segment.truncate, if_neg (by omega), if_pos (by omega)] at htruncate
      cases htruncate
    obtain ⟨next', htruncate', hsound, -⟩ := sound_truncate h.sound hfirst hkept
    rw [htruncate] at htruncate'
    cases htruncate'
    exact ⟨hsound, (filed_truncate h.sound h.filed hkept htruncate).1,
      counted_truncate h.sound h.counted hkept htruncate⟩
  · rw [Segment.truncate, if_pos (by omega)] at htruncate
    cases htruncate
    exact h

theorem Tallied.load {next : Segment} {cm cm' : ConfigurationManager} (h : Tallied codec seg)
    (hempty : heldIndexes seg = ∅) (hload : (refile seg).load codec cm = some (next, cm')) :
    Tallied codec next := by
  by_cases hintact : Intact seg.file
  · obtain ⟨cm'', hintactLoad⟩ := load_intact h.filed hintact cm
    rw [hload] at hintactLoad
    cases hintactLoad
    have hsame := sameContents_reload h.filed hintact
    refine ⟨hsame.sound h.sound, SameContents.filed hsame h.filed, ?_⟩
    have hcounter : (reload seg).vaildEntriesCounter = 0 := by
      show (refile seg).vaildEntriesCounter = 0
      unfold refile
      split <;> rfl
    have hnothing : heldIndexes (reload seg) = ∅ := by
      ext i
      rw [(hsame.sound h.sound).mem_heldIndexes, hsame.getTerm, ← h.sound.mem_heldIndexes, hempty]
    rw [Counted, hcounter, hnothing]
    rfl
  · rw [load_truncated hintact] at hload
    cases hload

theorem Tallied.step {next : Segment} {event : Event} (h : Tallied codec seg)
    (hcounts : CountsOnce codec seg event) (hstep : step codec seg event = some next) :
    Tallied codec next := by
  cases event with
  | append entry =>
    obtain ⟨⟨next', written⟩, happend, rfl⟩ := Option.map_eq_some_iff.mp hstep
    cases written with
    | true =>
      obtain ⟨hopen, data, hdata, -⟩ := append_cases happend
      exact h.append (hcounts hopen (by rw [hdata]; rfl)) happend
    | false =>
      rw [(append_refused happend).1]
      exact h
  | truncate kept => exact h.truncate hstep
  | prepareToClose =>
    cases hstep
    have hsame := sameContents_prepareToClose seg
    exact ⟨hsame.sound h.sound, SameContents.filed hsame h.filed, hsame.counted rfl h.counted⟩
  | reload =>
    obtain ⟨⟨next', cm⟩, hload, rfl⟩ := Option.map_eq_some_iff.mp hstep
    exact h.load hcounts hload

/-- In a run that counts every live entry once, a segment closes exactly when full. -/
theorem closesWhenFull (codec : ConfigurationCodec) (first : Int) (events : List Event)
    (hcounts : Guarded (step codec) (CountsOnce codec) (.new first) events) :
    ClosesWhenFull codec first events := by
  intro pre post seg hsplit hrun
  subst hsplit
  have htallied : Tallied codec seg :=
    invariant_of_step (fun _ _ _ => Tallied.step) (tallied_new codec first)
      (guarded_append_left hcounts) hrun
  refine ⟨htallied.isFullfilled_iff, fun entry rest next hpost hopen hpending happend => ?_⟩
  subst hpost
  obtain ⟨-, data, hdata, -⟩ := append_cases happend
  have hnew := (guarded_append_right hcounts hrun).1 hopen (by rw [hdata]; rfl)
  rw [isOpen_append hopen hpending happend]
  exact (htallied.append hnew happend).isFullfilled_iff

section Samples

private def emptyEntry (index : Int) : LogEntry := ⟨.noOp, ⟨index, 1⟩, 0, none, none, []⟩

/-- Index 2 comes last, and in between index 4 is written and truncated. -/
theorem lateEntry_closes : ClosesWhenFull .unary 1
    [.append (emptyEntry 1), .append (emptyEntry 3), .prepareToClose, .append (emptyEntry 4),
      .truncate 3, .append (emptyEntry 2)] :=
  closesWhenFull .unary 1 _ (by decide)

/-- The second write of index 2 is counted for index 1. -/
theorem secondWrite_full : ¬ ClosesWhenFull .unary 1
    [.append (emptyEntry 2), .append (emptyEntry 2)] := by
  intro h
  obtain ⟨hfull, -⟩ := h [.append (emptyEntry 2), .append (emptyEntry 2)] [] _ (by simp) rfl
  exact hfull.mp (by decide) 1 (by decide) (by decide) (by decide)

end Samples

end HitConsistency.Log.SegmentClosing
