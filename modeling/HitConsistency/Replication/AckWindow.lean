/- GID: HitConsistency/Replication/AckWindow
   digest: What a response acknowledges in the out-of-order window, index by index. -/

import HitConsistency.Replication.PeerSender

set_option autoImplicit false
set_option relaxedAutoImplicit false

/-!
The window is read as the set of indexes that it counts as acknowledged: all below its
start, and those whose flag is set. The two loops of a response only add to this set, the
pops behind them move the start and leave the set alone.
-/

namespace HitConsistency.Replication.AckWindow

open HitConsistency.Base.GuardedRuns
open HitConsistency.Base.IndexedDeque
open HitConsistency.Log.Entry
open HitConsistency.Replication.PeerSender
open HitConsistency.Replication.PeerSender.Replicator

def Acknowledged (start : Int) (window : List Bool) (i : Int) : Prop :=
  i < start ∨ item window (i - start) = some true

instance acknowledgedDecidable (start : Int) (window : List Bool) (i : Int) :
    Decidable (Acknowledged start window i) :=
  inferInstanceAs (Decidable (_ ∨ _))

section Steps

variable {start i : Int} {window : List Bool}

private theorem acknowledged_tail {b : Bool} :
    Acknowledged (start + 1) window i ↔ Acknowledged start (b :: window) i ∨ i = start := by
  unfold Acknowledged
  rcases lt_trichotomy i start with hlt | rfl | hgt
  · exact iff_of_true (.inl (by omega)) (.inl (.inl hlt))
  · exact iff_of_true (.inl (by omega)) (.inr rfl)
  · rw [item_cons_pos b window (by omega), show i - start - 1 = i - (start + 1) by omega]
    constructor
    · rintro (hlt | hitem)
      · omega
      · exact .inl (.inr hitem)
    · rintro ((hlt | hitem) | heq)
      · omega
      · exact .inr hitem
      · omega

private theorem acknowledged_head {b : Bool} : Acknowledged start
    (b :: window) start ↔ b = true := by
  unfold Acknowledged
  rw [Int.sub_self, item_cons_zero]
  simp

private theorem acknowledged_push : Acknowledged start (window ++ [false]) i ↔
    Acknowledged start window i := by
  unfold Acknowledged
  rw [item_push]
  split
  · rename_i hend
    rw [item_none_of_le hend.ge]
    simp
  · rfl

theorem acknowledged_pad (n : Nat) : Acknowledged start (window ++ List.replicate n false) i ↔
    Acknowledged start window i := by
  induction n with
  | zero => simp
  | succ n ih =>
    rw [List.replicate_succ', ← List.append_assoc, acknowledged_push]
    exact ih

private theorem takeBelow_spec {lastLogIndex : Int} {acc : List Int} {w : Window}
    (hw : takeBelow lastLogIndex start window acc = some w) :
    w.ooStartIndex + w.ooCommittedEntries.length = start + window.length ∧
      (Acknowledged w.ooStartIndex w.ooCommittedEntries i ↔
        Acknowledged start window i ∨ i < lastLogIndex) ∧
      (i ∈ w.commitIndexes ↔ i ∈ acc ∨ i < lastLogIndex ∧ ¬ Acknowledged start window i) := by
  induction window generalizing start acc with
  | nil =>
    rw [takeBelow] at hw
    split at hw
    · cases hw
    · rename_i hle
      have hbelow : i < lastLogIndex → Acknowledged start [] i := fun hi => .inl (by omega)
      cases hw
      exact ⟨rfl, ⟨.inl, fun h => h.elim id hbelow⟩,
        ⟨.inl, fun h => h.elim id fun hi => absurd (hbelow hi.1) hi.2⟩⟩
  | cons b window ih =>
    rw [takeBelow] at hw
    split at hw
    · rename_i hlt
      obtain ⟨hend, hack, hmem⟩ := ih hw
      have hstart : i = start → (Acknowledged start (b :: window) i ↔ b = true) := by
        rintro rfl
        exact acknowledged_head
      refine ⟨by rw [hend, List.length_cons]; omega, ?_, ?_⟩
      · rw [hack, acknowledged_tail (b := b)]
        constructor
        · rintro ((h | rfl) | h)
          · exact .inl h
          · exact .inr hlt
          · exact .inr h
        · rintro (h | h)
          · exact .inl (.inl h)
          · exact .inr h
      · rw [hmem, acknowledged_tail (b := b)]
        cases b with
        | true =>
          constructor
          · rintro (h | ⟨hi, hnot⟩)
            · exact .inl h
            · exact .inr ⟨hi, fun h => hnot (.inl h)⟩
          · rintro (h | ⟨hi, hnot⟩)
            · exact .inl h
            · exact .inr ⟨hi, fun h => h.elim hnot fun heq => hnot ((hstart heq).mpr rfl)⟩
        | false =>
          rw [if_neg (by simp), List.mem_append, List.mem_singleton]
          constructor
          · rintro ((h | rfl) | ⟨hi, hnot⟩)
            · exact .inl h
            · exact .inr ⟨hlt, fun h => by cases (hstart rfl).mp h⟩
            · exact .inr ⟨hi, fun h => hnot (.inl h)⟩
          · rintro (h | ⟨hi, hnot⟩)
            · exact .inl (.inl h)
            · by_cases heq : i = start
              · exact .inl (.inr heq)
              · exact .inr ⟨hi, fun h => h.elim hnot heq⟩
    · rename_i hle
      have hbelow : i < lastLogIndex → Acknowledged start (b :: window) i :=
        fun hi => .inl (by omega)
      cases hw
      exact ⟨rfl, ⟨.inl, fun h => h.elim id hbelow⟩,
        ⟨.inl, fun h => h.elim id fun hi => absurd (hbelow hi.1) hi.2⟩⟩

private theorem takeBelow_isSome {lastLogIndex : Int} (acc : List Int) :
    (takeBelow lastLogIndex start window acc).isSome ↔ lastLogIndex ≤ start + window.length := by
  induction window generalizing start acc with
  | nil =>
    rw [takeBelow]
    split
    · exact iff_of_false (by simp) (by rw [List.length_nil]; omega)
    · exact iff_of_true rfl (by rw [List.length_nil]; omega)
  | cons b window ih =>
    rw [takeBelow]
    split
    · rw [ih, List.length_cons]
      constructor <;> intro h <;> omega
    · exact iff_of_true rfl (by rw [List.length_cons]; omega)

private theorem popAcknowledged_spec (start : Int) (window : List Bool) :
    (popAcknowledged start window).1 + (popAcknowledged start window).2.length =
        start + window.length ∧
      ¬ Acknowledged (popAcknowledged start window).1 (popAcknowledged start window).2
        (popAcknowledged start window).1 ∧
      ∀ i, Acknowledged (popAcknowledged start window).1 (popAcknowledged start window).2 i ↔
        Acknowledged start window i := by
  induction window generalizing start with
  | nil => exact ⟨rfl, by simp [popAcknowledged, Acknowledged, item], fun i => Iff.rfl⟩
  | cons b window ih =>
    cases b with
    | false => exact ⟨rfl, by simp [popAcknowledged, acknowledged_head], fun i => Iff.rfl⟩
    | true =>
      obtain ⟨hend, hhead, hack⟩ := ih (start + 1)
      rw [popAcknowledged]
      refine ⟨by rw [hend, List.length_cons]; omega, hhead, fun i => ?_⟩
      rw [hack i, acknowledged_tail (b := true)]
      refine ⟨fun h => h.elim id ?_, .inl⟩
      rintro rfl
      exact acknowledged_head.mpr rfl

private theorem markIndex_spec {w w' : Window} (hw : markIndex w i = some w') :
    w'.ooStartIndex = w.ooStartIndex ∧
      w'.ooCommittedEntries.length = w.ooCommittedEntries.length ∧ ∀ j,
      (Acknowledged w'.ooStartIndex w'.ooCommittedEntries j ↔
        Acknowledged w.ooStartIndex w.ooCommittedEntries j ∨ j = i) ∧
      (j ∈ w'.commitIndexes ↔ j ∈ w.commitIndexes ∨
        j = i ∧ ¬ Acknowledged w.ooStartIndex w.ooCommittedEntries j) := by
  obtain ⟨b, hb, hw⟩ := Option.bind_eq_some_iff.mp hw
  have hlow := (item_eq_some_bounds hb).1
  have hold : Acknowledged w.ooStartIndex w.ooCommittedEntries i ↔ b = true := by
    unfold Acknowledged
    rw [hb, Option.some_inj]
    exact or_iff_right (by omega)
  cases b with
  | true =>
    rw [if_pos rfl] at hw
    cases hw
    have hmarked := hold.mpr rfl
    refine ⟨rfl, rfl, fun j => ⟨⟨.inl, ?_⟩, ⟨.inl, ?_⟩⟩⟩
    · rintro (h | rfl)
      · exact h
      · exact hmarked
    · rintro (h | ⟨rfl, hnot⟩)
      · exact h
      · exact absurd hmarked hnot
  | false =>
    rw [if_neg (by simp)] at hw
    obtain ⟨stored, hstore, hw⟩ := Option.bind_eq_some_iff.mp hw
    cases hw
    have hopen : ¬ Acknowledged w.ooStartIndex w.ooCommittedEntries i :=
      fun h => by cases hold.mp h
    refine ⟨rfl, store_length hstore, fun j => ⟨?_, ?_⟩⟩
    · unfold Acknowledged
      dsimp only
      rw [item_store hstore]
      split
      · exact iff_of_true (.inr rfl) (.inr (by omega))
      · rename_i hne
        exact ⟨.inl, fun h => h.elim id fun hji => absurd (by rw [hji]) hne⟩
    · dsimp only
      rw [List.mem_append, List.mem_singleton]
      refine or_congr_right ⟨?_, And.left⟩
      rintro rfl
      exact ⟨rfl, hopen⟩

private theorem markIndexes_spec {w w' : Window} {indexes : List Int}
    (hw : runEvents markIndex w indexes = some w') :
    w'.ooStartIndex = w.ooStartIndex ∧
      w'.ooCommittedEntries.length = w.ooCommittedEntries.length ∧ ∀ j,
      (Acknowledged w'.ooStartIndex w'.ooCommittedEntries j ↔
        Acknowledged w.ooStartIndex w.ooCommittedEntries j ∨ j ∈ indexes) ∧
      (j ∈ w'.commitIndexes ↔ j ∈ w.commitIndexes ∨
        j ∈ indexes ∧ ¬ Acknowledged w.ooStartIndex w.ooCommittedEntries j) := by
  induction indexes generalizing w with
  | nil =>
    cases hw
    simp
  | cons x indexes ih =>
    obtain ⟨mid, hmid, hw⟩ := runEvents_cons_eq_some.mp hw
    obtain ⟨hstart, hlength, hspec⟩ := markIndex_spec hmid
    obtain ⟨hstart', hlength', hspec'⟩ := ih hw
    refine ⟨hstart'.trans hstart, hlength'.trans hlength, fun j => ⟨?_, ?_⟩⟩
    · rw [(hspec' j).1, (hspec j).1, List.mem_cons, or_assoc]
    · rw [(hspec' j).2, (hspec j).2, (hspec j).1, List.mem_cons]
      constructor
      · rintro ((h | ⟨hx, hnew⟩) | ⟨h, hnot⟩)
        · exact .inl h
        · exact .inr ⟨.inl hx, hnew⟩
        · exact .inr ⟨.inr h, fun hack => hnot (.inl hack)⟩
      · rintro (h | ⟨hx | h, hnew⟩)
        · exact .inl (.inl h)
        · exact .inl (.inr ⟨hx, hnew⟩)
        · by_cases hx : j = x
          · exact .inl (.inr ⟨hx, hnew⟩)
          · exact .inr ⟨h, fun hor => hor.elim hnew hx⟩

private theorem markIndex_defined {w : Window} (hlow : w.ooStartIndex ≤ i)
    (hhigh : i < w.ooStartIndex + w.ooCommittedEntries.length) :
    ∃ w', markIndex w i = some w' := by
  obtain ⟨b, hb⟩ := exists_item (q := w.ooCommittedEntries) (d := i - w.ooStartIndex)
    (by omega) (by omega)
  unfold markIndex
  rw [hb]
  cases b with
  | true => exact ⟨_, rfl⟩
  | false =>
    rw [store_defined true (by omega) (by omega)]
    exact ⟨_, rfl⟩

private theorem markIndexes_defined {w : Window} {indexes : List Int}
    (hrange : ∀ j ∈ indexes, w.ooStartIndex ≤ j ∧
      j < w.ooStartIndex + w.ooCommittedEntries.length) :
    ∃ w', runEvents markIndex w indexes = some w' := by
  induction indexes generalizing w with
  | nil => exact ⟨w, rfl⟩
  | cons x indexes ih =>
    obtain ⟨hlow, hhigh⟩ := hrange x List.mem_cons_self
    obtain ⟨mid, hmid⟩ := markIndex_defined hlow hhigh
    obtain ⟨hstart, hlength, -⟩ := markIndex_spec hmid
    obtain ⟨w', hw'⟩ := ih (w := mid) fun j hj => by
      rw [hstart, hlength]
      exact hrange j (List.mem_cons_of_mem x hj)
    exact ⟨w', runEvents_cons_eq_some.mpr ⟨mid, hmid, hw'⟩⟩

end Steps

section Response

variable {r : Replicator} {request : AppendEntriesRequest} {response : AppendEntriesResponse}

/-- The peer's window counts the index as acknowledged. -/
def Known (r : Replicator) (i : Int) : Prop :=
  Acknowledged r.ooStartIndex r.ooCommittedEntries i

private theorem acknowledge_spec {w : Window} (hw : r.acknowledge request response = some w) :
    w.ooStartIndex + w.ooCommittedEntries.length =
        r.ooStartIndex + r.ooCommittedEntries.length ∧ ∀ i,
      (Acknowledged w.ooStartIndex w.ooCommittedEntries i ↔
        Known r i ∨ i < response.lastLogIndex ∨ Carries request i) ∧
      (i ∈ w.commitIndexes ↔
        ¬ Known r i ∧ (i < response.lastLogIndex ∨ Carries request i)) := by
  obtain ⟨below, hbelow, hw⟩ := Option.bind_eq_some_iff.mp hw
  have hend := (takeBelow_spec (i := 0) hbelow).1
  have hack : ∀ i, Acknowledged below.ooStartIndex below.ooCommittedEntries i ↔
      Known r i ∨ i < response.lastLogIndex := fun i => (takeBelow_spec hbelow).2.1
  have hmem : ∀ i, i ∈ below.commitIndexes ↔ i < response.lastLogIndex ∧ ¬ Known r i := fun i =>
    (takeBelow_spec hbelow).2.2.trans (or_iff_right List.not_mem_nil)
  have hstart : ∀ i, i < below.ooStartIndex → Known r i ∨ i < response.lastLogIndex :=
    fun i hi => (hack i).mp (.inl hi)
  dsimp only at hw
  split at hw
  · rename_i hlast
    cases hw
    refine ⟨hend, fun i => ?_⟩
    have hcarried : Carries request i → Known r i ∨ i < response.lastLogIndex :=
      fun hi => hstart i (lt_of_le_of_lt hi.2 hlast)
    rw [hack i, hmem i]
    refine ⟨⟨?_, ?_⟩, ⟨?_, ?_⟩⟩
    · exact Or.imp_right Or.inl
    · rintro (h | h | h)
      · exact .inl h
      · exact .inr h
      · exact hcarried h
    · rintro ⟨h, hnew⟩
      exact ⟨hnew, .inl h⟩
    · rintro ⟨hnew, h | h⟩
      · exact ⟨h, hnew⟩
      · exact ⟨(hcarried h).resolve_left hnew, hnew⟩
  · obtain ⟨hsame, hlength, hspec⟩ := markIndexes_spec hw
    refine ⟨by rw [hsame, hlength, hend], fun i => ?_⟩
    have hrange : i ∈ indexRange (max below.ooStartIndex (request.prevLogIndex + 1))
        (request.prevLogIndex + request.entries.length) ↔
          below.ooStartIndex ≤ i ∧ Carries request i := by
      rw [mem_indexRange, Carries, max_le_iff, Int.add_one_le_iff, and_assoc]
    have hlow : below.ooStartIndex ≤ i ∨ Known r i ∨ i < response.lastLogIndex :=
      (le_or_gt below.ooStartIndex i).imp_right (hstart i)
    rw [(hspec i).1, (hspec i).2, hack i, hmem i, hrange]
    refine ⟨⟨?_, ?_⟩, ⟨?_, ?_⟩⟩
    · rintro ((h | h) | ⟨-, h⟩)
      · exact .inl h
      · exact .inr (.inl h)
      · exact .inr (.inr h)
    · rintro (h | h | h)
      · exact .inl (.inl h)
      · exact .inl (.inr h)
      · exact hlow.elim (fun hl => .inr ⟨hl, h⟩) .inl
    · rintro (⟨h, hnew⟩ | ⟨⟨-, h⟩, hnot⟩)
      · exact ⟨hnew, .inl h⟩
      · exact ⟨fun hknown => hnot (.inl hknown), .inr h⟩
    · rintro ⟨hnew, h | h⟩
      · exact .inl ⟨h, hnew⟩
      · by_cases hbelow' : i < response.lastLogIndex
        · exact .inl ⟨hbelow', hnew⟩
        · have hnot : ¬ (Known r i ∨ i < response.lastLogIndex) :=
            fun hor => hor.elim hnew hbelow'
          exact .inr ⟨⟨hlow.resolve_right hnot, h⟩, hnot⟩

variable {next : (Int × List Bool) × Option (List Int)}

/-- A successful request with entries: the set grows by the indexes below the reported one
and by the request's own, the list for `commit_at` is what is new, and the start stands
at the first index outside. -/
theorem nextWindow_spec (hentries : request.entries ≠ [])
    (hnext : r.nextWindow request response = some next) :
    next.1.1 + next.1.2.length = r.ooStartIndex + r.ooCommittedEntries.length ∧
      ¬ Acknowledged next.1.1 next.1.2 next.1.1 ∧
      (∀ i, Acknowledged next.1.1 next.1.2 i ↔
        Known r i ∨ i < response.lastLogIndex ∨ Carries request i) ∧
      ∃ indexes, next.2 = some indexes ∧ ∀ i, i ∈ indexes ↔
        ¬ Known r i ∧ (i < response.lastLogIndex ∨ Carries request i) := by
  rw [nextWindow, if_neg (by simpa using hentries)] at hnext
  obtain ⟨w, hw, rfl⟩ := Option.map_eq_some_iff.mp hnext
  obtain ⟨hend, hspec⟩ := acknowledge_spec hw
  obtain ⟨hpop, hhead, hack⟩ := popAcknowledged_spec w.ooStartIndex w.ooCommittedEntries
  exact ⟨hpop.trans hend, hhead, fun i => (hack i).trans (hspec i).1, w.commitIndexes, rfl,
    fun i => (hspec i).2⟩

theorem nextWindow_of_empty (hentries : request.entries = []) :
    r.nextWindow request response = some ((r.ooStartIndex, r.ooCommittedEntries), none) := by
  rw [nextWindow, if_pos (by simp [hentries])]

/-- The window lasts for a response exactly if the reported index is no more than one
above everything that was sent. -/
theorem nextWindow_isSome (hentries : request.entries ≠ [])
    (hsent : request.prevLogIndex + request.entries.length <
      r.ooStartIndex + r.ooCommittedEntries.length) :
    (r.nextWindow request response).isSome ↔
      response.lastLogIndex ≤ r.ooStartIndex + r.ooCommittedEntries.length := by
  rw [nextWindow, if_neg (by simpa using hentries), Option.isSome_map]
  rw [← takeBelow_isSome []]
  unfold acknowledge
  cases hbelow : takeBelow response.lastLogIndex r.ooStartIndex r.ooCommittedEntries [] with
  | none => rfl
  | some below =>
    have hend := (takeBelow_spec (i := 0) hbelow).1
    refine iff_of_true ?_ rfl
    rw [Option.bind_eq_bind, Option.bind_some]
    dsimp only
    split
    · rfl
    · have hrange : ∀ j ∈ indexRange (max below.ooStartIndex (request.prevLogIndex + 1))
          (request.prevLogIndex + request.entries.length),
          below.ooStartIndex ≤ j ∧ j < below.ooStartIndex + below.ooCommittedEntries.length := by
        intro j hj
        have := mem_indexRange.mp hj
        exact ⟨(le_max_left _ _).trans this.1, by omega⟩
      obtain ⟨w, hw⟩ := markIndexes_defined hrange
      rw [hw]
      rfl

end Response

end HitConsistency.Replication.AckWindow
