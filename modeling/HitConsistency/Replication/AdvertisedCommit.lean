/- GID: HitConsistency/Replication/AdvertisedCommit
   digest: What the leader's requests say about commits, over every order of sends and answers. -/

import HitConsistency.Replication.PeerSender

set_option autoImplicit false
set_option relaxedAutoImplicit false

/-!
A leader is its ballot box and one replicator for each peer. Every event is one
critical section: an operation on the box, a send of one replicator, or one
response. The send that ends a response handler is an event of its own, so other
work may come between.
-/

namespace HitConsistency.Replication.AdvertisedCommit

open HitConsistency.Base.GuardedRuns
open HitConsistency.Base.IndexedDeque
open HitConsistency.Group.Peers
open HitConsistency.Commit.BallotCount
open HitConsistency.Commit.PendingQueues
open HitConsistency.Log.Entry
open HitConsistency.Replication.PeerSender
open BallotBox (Op)

/-- The leader's commit state. `acknowledged` records every index of every request
that a peer has answered with success. -/
structure Leader where
  box : BallotBox
  replicators : PeerId → Option Replicator
  acknowledged : List (PeerId × Int)

inductive Send
  | emptyEntries (isHeartbeat : Bool)
  | entries
  | continueSending (timedOut : Bool)
  deriving DecidableEq

inductive Event
  | operate (op : Op)
  | start (serverId peer : PeerId) (term : Int) (log : LogView)
  | send (peer : PeerId) (log : LogView) (callId : Nat) (send : Send)
  | rpcReturned (peer : PeerId) (callId : Nat) (failed : Bool)
      (request : AppendEntriesRequest) (response : AppendEntriesResponse)

def Send.run (flags : Flags) (r : Replicator) (box : BallotBox) (log : LogView) (callId : Nat) :
    Send → Replicator × Option AppendEntriesRequest
  | .emptyEntries isHeartbeat => r.sendEmptyEntries box log callId isHeartbeat
  | .entries => r.sendEntries flags box log callId
  | .continueSending timedOut => r.continueSending flags box log callId timedOut

namespace Leader

def new : Leader := ⟨.new, fun _ => none, []⟩

/-- The replicator of a peer, if its lock can still be taken. -/
def unlocked (s : Leader) (peer : PeerId) : Option Replicator :=
  (s.replicators peer).filter fun r => !r.idLocked

def setReplicator (s : Leader) (peer : PeerId) (r : Option Replicator) : Leader :=
  { s with replicators := Function.update s.replicators peer r }

/-- The box behind the `commit_at` call of a response, if it makes one. -/
def commitFor (s : Leader) (peer : PeerId) (indexes : Option (List Int)) : Option BallotBox :=
  match indexes with
  | none => some s.box
  | some indexes => s.box.perform (.commitAt indexes peer)

def step (flags : Flags) (s : Leader) : Event → Option Leader
  | .operate op => (s.box.perform op).map fun box => { s with box := box }
  | .start serverId peer term log =>
      some (s.setReplicator peer (some (.start serverId peer term log)))
  | .send peer log callId send =>
      match s.unlocked peer with
      | none => some s
      | some r => some (s.setReplicator peer (some (send.run flags r s.box log callId).1))
  | .rpcReturned peer callId failed request response =>
      match s.unlocked peer with
      | none => some s
      | some r => do
          let handled ← r.onRpcReturned callId failed request response
          let box ← s.commitFor peer handled.commitIndexes
          let answered : List Int :=
            if handled.commitIndexes.isSome then
              Replicator.indexRange (request.prevLogIndex + 1)
                (request.prevLogIndex + request.entries.length)
            else []
          some { s.setReplicator peer handled.replicator with
            box := box
            acknowledged := s.acknowledged ++ answered.map (Prod.mk peer) }

/-- The request that an event fills, with the replicator that fills it. -/
def filled (flags : Flags) (s : Leader) : Event → Option (Replicator × AppendEntriesRequest)
  | .send peer log callId send => do
      let r ← s.unlocked peer
      let request ← (send.run flags r s.box log callId).2
      some (r, request)
  | _ => none

end Leader

/-- The request advertises nothing beyond what is committed: its committed index is
at most the box's, and its out-of-order indexes have granted ballots and were
acknowledged by the very peer. -/
structure Sound (s : Leader) (request : AppendEntriesRequest) : Prop where
  committedIndex : request.committedIndex ≤ s.box.lastCommittedIndex
  granted : ∀ i ∈ request.committedOoIndex,
    ∃ bl, item s.box.pendingMetaQueue (i - s.box.pendingIndex) = some bl ∧ bl.granted = true
  acknowledged : ∀ i ∈ request.committedOoIndex, (request.peerId, i) ∈ s.acknowledged

/-- Every request filled while the node leads is sound. -/
def RequestsSound (flags : Flags) (events : List Event) : Prop :=
  ∀ pre event post s r request, events = pre ++ event :: post →
    runEvents (Leader.step flags) .new pre = some s → s.box.pendingIndex ≠ 0 →
    s.filled flags event = some (r, request) → Sound s request

/-- A clear meets no flags, and a reset moves past the committed index, as its `CHECK` says. -/
def Orderly (s : Leader) : Event → Prop
  | .operate .clearPendingTasks => s.box.committedIndexQueue = []
  | .operate (.resetPendingIndex n) => s.box.lastCommittedIndex < n
  | _ => True

/-- A send of the leader finds the peer's window below the pending index and not
past the first index above the committed one. -/
def WindowBehind (flags : Flags) (s : Leader) (event : Event) : Prop :=
  ∀ sent ∈ s.filled flags event, s.box.pendingIndex ≠ 0 →
    sent.1.ooStartIndex < s.box.pendingIndex ∧
      sent.1.ooStartIndex ≤ s.box.lastCommittedIndex + 1

instance orderlyDecidable (s : Leader) : ∀ event, Decidable (Orderly s event)
  | .operate .clearPendingTasks => inferInstanceAs (Decidable (_ = _))
  | .operate (.resetPendingIndex _) => inferInstanceAs (Decidable (_ < _))
  | .operate (.appendPendingTask _ _) => inferInstanceAs (Decidable True)
  | .operate (.commitAt _ _) => inferInstanceAs (Decidable True)
  | .operate (.setLastCommittedIndex _ _) => inferInstanceAs (Decidable True)
  | .start _ _ _ _ => inferInstanceAs (Decidable True)
  | .send _ _ _ _ => inferInstanceAs (Decidable True)
  | .rpcReturned _ _ _ _ _ => inferInstanceAs (Decidable True)

instance windowBehindDecidable (flags : Flags) (s : Leader) (event : Event) :
    Decidable (WindowBehind flags s event) :=
  inferInstanceAs (Decidable (∀ sent ∈ s.filled flags event, _))

/-- Flags are parallel to ballots and set for granted ones only. -/
structure FlagsGranted (metaQueue : List Ballot) (flags : List Bool) : Prop where
  length : flags.length = metaQueue.length
  granted : ∀ d, item flags d = some true → ∃ bl, item metaQueue d = some bl ∧ bl.granted = true

structure Inv (s : Leader) : Prop where
  flags : FlagsGranted s.box.pendingMetaQueue s.box.committedIndexQueue
  pending : s.box.pendingIndex ≠ 0 → s.box.lastCommittedIndex < s.box.pendingIndex
  windows : ∀ peer r, s.replicators peer = some r →
    r.peerId = peer ∧ Marks r.ooStartIndex r.ooCommittedEntries fun i => (peer, i) ∈ s.acknowledged

section Box

private theorem grantIn_le (peers : List UnfoundPeerId) (quorum : Int) (peer : PeerId)
    (hint : Int) :
    (Ballot.grantIn peers quorum peer hint).2.1 ≤ quorum := by
  unfold Ballot.grantIn
  split
  · exact le_rfl
  · split
    · exact le_rfl
    · dsimp only
      omega

private theorem granted_grant {bl : Ballot} (h : bl.granted = true) (peer : PeerId)
    (hint : PosHint) :
    (bl.grant peer hint).1.granted = true := by
  have h0 := grantIn_le bl.peers bl.quorum peer hint.pos0
  have h1 := grantIn_le bl.oldPeers bl.oldQuorum peer hint.pos1
  simp only [Ballot.granted, Bool.and_eq_true, decide_eq_true_eq] at h ⊢
  unfold Ballot.grant
  dsimp only
  split
  · exact ⟨h0.trans h.1, h.2⟩
  · exact ⟨h0.trans h.1, h1.trans h.2⟩

private theorem flagsGranted_grantOne {p : Int} {peer : PeerId} {pass pass' : Pass} {i : Int}
    (h : FlagsGranted pass.metaQueue pass.flags)
    (hstep : BallotBox.grantOne p peer pass i = some pass') :
    FlagsGranted pass'.metaQueue pass'.flags := by
  have hlen := grantOne_lengths hstep
  refine ⟨by rw [hlen.1, hlen.2, h.length], ?_⟩
  simp only [BallotBox.grantOne, Option.bind_eq_bind, Option.bind_eq_some_iff] at hstep
  obtain ⟨bl, hbl, metaQueue, hmeta, hstep⟩ := hstep
  -- The ballot of a set flag is granted in the new deque as well.
  have keep : ∀ d, item pass.flags d = some true →
      ∃ b, item metaQueue d = some b ∧ b.granted = true := by
    intro d hd
    obtain ⟨b, hb, hg⟩ := h.granted d hd
    rw [item_store hmeta]
    split
    · rename_i hdi
      subst hdi
      rw [hbl] at hb
      cases hb
      exact ⟨_, rfl, granted_grant hg peer pass.posHint⟩
    · exact ⟨b, hb, hg⟩
  split_ifs at hstep with hg
  · obtain ⟨flag, -, hstep⟩ := Option.bind_eq_some_iff.mp hstep
    split at hstep
    · cases hstep
      exact keep
    · obtain ⟨flags, hflags, hstep⟩ := Option.bind_eq_some_iff.mp hstep
      cases hstep
      intro d hd
      rw [item_store hflags] at hd
      split at hd
      · rename_i hdi
        subst hdi
        exact ⟨_, by rw [item_store hmeta, if_pos rfl], hg⟩
      · exact keep d hd
  · cases hstep
    exact keep

private theorem flagsGranted_pop {metaQueue : List Ballot} {flags : List Bool}
    (h : FlagsGranted metaQueue flags) (k : Nat) :
    FlagsGranted (metaQueue.drop k) (flags.drop k) := by
  refine ⟨by simp [h.length], ?_⟩
  intro d hd
  have hb := item_eq_some_bounds hd
  rw [item_drop _ _ hb.1] at hd
  obtain ⟨bl, hbl, hg⟩ := h.granted _ hd
  exact ⟨bl, by rw [item_drop _ _ hb.1, hbl], hg⟩

private theorem flagsGranted_commitAt {box : BallotBox} {indexes : List Int} {peer : PeerId}
    {r : Outcome}
    (h : FlagsGranted box.pendingMetaQueue box.committedIndexQueue)
    (hrun : box.commitAt indexes peer = some r) :
    FlagsGranted r.box.pendingMetaQueue r.box.committedIndexQueue := by
  unfold BallotBox.commitAt at hrun
  split at hrun
  · cases hrun
    exact h
  · split at hrun
    · cases hrun
      exact h
    · split_ifs at hrun
      · cases hrun
        exact h
      · cases hrun
        exact h
      · obtain ⟨pass, hpass, hrun⟩ := Option.bind_eq_some_iff.mp hrun
        have keep : ∀ (q : Pass) (i : Int) (q' : Pass), FlagsGranted q.metaQueue q.flags →
            BallotBox.grantOne box.pendingIndex peer q i = some q' →
            FlagsGranted q'.metaQueue q'.flags :=
          fun _ _ _ hq hstep => flagsGranted_grantOne hq hstep
        have hmid : FlagsGranted pass.metaQueue pass.flags := invariant_of_every_step keep h hpass
        dsimp only at hrun
        split_ifs at hrun
        · cases hrun
          exact hmid
        · rw [popCommitted_eq _ _ hmid.length.symm] at hrun
          cases hrun
          exact flagsGranted_pop hmid _
        · cases hrun
          exact hmid

end Box

private theorem box_perform {box box' : BallotBox} {op : Op}
    (hflags : FlagsGranted box.pendingMetaQueue box.committedIndexQueue)
    (hpending : box.pendingIndex ≠ 0 → box.lastCommittedIndex < box.pendingIndex)
    (hop : match op with
      | .clearPendingTasks => box.committedIndexQueue = []
      | .resetPendingIndex n => box.lastCommittedIndex < n
      | _ => True)
    (hrun : box.perform op = some box') :
    FlagsGranted box'.pendingMetaQueue box'.committedIndexQueue ∧
      (box'.pendingIndex ≠ 0 → box'.lastCommittedIndex < box'.pendingIndex) := by
  cases op with
  | resetPendingIndex n =>
    cases hrun
    exact ⟨hflags, fun _ => hop⟩
  | appendPendingTask conf oldConf =>
    cases hrun
    refine ⟨⟨by simp [BallotBox.appendPendingTask, hflags.length], ?_⟩, hpending⟩
    intro d hd
    dsimp only [BallotBox.appendPendingTask] at hd ⊢
    rw [item_push] at hd
    split at hd
    · cases hd
    · obtain ⟨bl, hbl, hg⟩ := hflags.granted d hd
      have hb := item_eq_some_bounds hbl
      exact ⟨bl, by rw [item_push, if_neg (by omega), hbl], hg⟩
  | commitAt indexes peer =>
    obtain ⟨r, hr, rfl⟩ := Option.map_eq_some_iff.mp hrun
    refine ⟨flagsGranted_commitAt hflags hr, ?_⟩
    obtain ⟨k, -, -, hp, hlast⟩ := commitAt_shift hr
    intro hne
    rcases hlast with ⟨rfl, hlast⟩ | hlast
    · have hsame : r.box.pendingIndex = box.pendingIndex := by omega
      have := hpending (hsame ▸ hne)
      omega
    · omega
  | clearPendingTasks =>
    cases hrun
    refine ⟨⟨by simp [BallotBox.clearPendingTasks, hop], ?_⟩, fun hne => absurd rfl hne⟩
    intro d hd
    simp [BallotBox.clearPendingTasks, hop, item] at hd
  | setLastCommittedIndex last oo =>
    cases hrun
    unfold BallotBox.setLastCommittedIndex
    split_ifs with hbusy
    · exact ⟨hflags, hpending⟩
    · exact ⟨hflags, hpending⟩
    · refine ⟨hflags, fun hne => absurd ?_ hne⟩
      by_contra hp
      exact hbusy (.inl hp)
    · exact ⟨hflags, hpending⟩

theorem inv_new : Inv .new := by
  refine ⟨⟨rfl, ?_⟩, fun h => absurd rfl h, fun peer r h => by cases h⟩
  intro d hd
  simp [Leader.new, BallotBox.new, item] at hd

private theorem unlocked_eq_some {s : Leader} {peer : PeerId} {r : Replicator}
    (h : s.unlocked peer = some r) : s.replicators peer = some r :=
  (Option.filter_eq_some_iff.mp h).1

private theorem windows_setReplicator {s : Leader} (h : Inv s) {peer : PeerId}
    {new : Option Replicator}
    {acknowledged : List (PeerId × Int)} (hsub : s.acknowledged ⊆ acknowledged)
    (hnew : ∀ r, new = some r → r.peerId = peer ∧
      Marks r.ooStartIndex r.ooCommittedEntries fun i => (peer, i) ∈ acknowledged) :
    ∀ p r, (s.setReplicator peer new).replicators p = some r → r.peerId = p ∧
      Marks r.ooStartIndex r.ooCommittedEntries fun i => (p, i) ∈ acknowledged := by
  intro p r hr
  by_cases hp : p = peer
  · subst hp
    exact hnew r (by simpa [Leader.setReplicator] using hr)
  · replace hr : s.replicators p = some r := by simpa [Leader.setReplicator, hp] using hr
    obtain ⟨hid, hmarks⟩ := h.windows p r hr
    exact ⟨hid, hmarks.imp fun i hi => hsub hi⟩

private theorem marks_send (flags : Flags) {r : Replicator} (box : BallotBox) (log : LogView)
    (callId : Nat) (send : Send) {P : Int → Prop}
    (h : Marks r.ooStartIndex r.ooCommittedEntries P) :
    (send.run flags r box log callId).1.peerId = r.peerId ∧
      Marks (send.run flags r box log callId).1.ooStartIndex
        (send.run flags r box log callId).1.ooCommittedEntries P := by
  cases send with
  | emptyEntries isHeartbeat => exact marks_sendEmptyEntries h isHeartbeat
  | entries => exact marks_sendEntries h
  | continueSending timedOut => exact marks_continueSending h timedOut

theorem inv_step {flags : Flags} (s : Leader) (event : Event) (t : Leader) (h : Inv s)
    (hord : Orderly s event) (hstep : s.step flags event = some t) : Inv t := by
  cases event with
  | operate op =>
    obtain ⟨box, hbox, rfl⟩ := Option.map_eq_some_iff.mp hstep
    have hboth := box_perform h.flags h.pending (by cases op <;> exact hord) hbox
    exact ⟨hboth.1, hboth.2, h.windows⟩
  | start serverId peer term log =>
    cases hstep
    refine ⟨h.flags, h.pending, windows_setReplicator h (List.Subset.refl _) ?_⟩
    rintro r hr
    cases hr
    exact ⟨rfl, marks_nil⟩
  | send peer log callId send =>
    unfold Leader.step at hstep
    dsimp only at hstep
    split at hstep
    · cases hstep
      exact h
    · rename_i r hr
      cases hstep
      obtain ⟨hid, hmarks⟩ := h.windows peer r (unlocked_eq_some hr)
      refine ⟨h.flags, h.pending, windows_setReplicator h (List.Subset.refl _) ?_⟩
      rintro r' hr'
      cases hr'
      have hsend := marks_send flags s.box log callId send hmarks
      exact ⟨hsend.1.trans hid, hsend.2⟩
  | rpcReturned peer callId failed request response =>
    unfold Leader.step at hstep
    dsimp only at hstep
    split at hstep
    · cases hstep
      exact h
    · rename_i r hr
      obtain ⟨handled, hhandled, hstep⟩ := Option.bind_eq_some_iff.mp hstep
      obtain ⟨box, hbox, hstep⟩ := Option.bind_eq_some_iff.mp hstep
      cases hstep
      obtain ⟨hid, hmarks⟩ := h.windows peer r (unlocked_eq_some hr)
      have hboth : FlagsGranted box.pendingMetaQueue box.committedIndexQueue ∧
          (box.pendingIndex ≠ 0 → box.lastCommittedIndex < box.pendingIndex) := by
        unfold Leader.commitFor at hbox
        split at hbox
        · cases hbox
          exact ⟨h.flags, h.pending⟩
        · exact box_perform h.flags h.pending trivial hbox
      refine ⟨hboth.1, hboth.2, ?_⟩
      refine windows_setReplicator h (List.subset_append_left _ _) ?_
      intro r' hr'
      have hres := marks_onRpcReturned
        (P := fun i => (peer, i) ∈ s.acknowledged ∨
          handled.commitIndexes.isSome = true ∧ Carries request i)
        hhandled (hmarks.imp fun i hi => .inl hi) (fun hsome i hi => .inr ⟨hsome, hi⟩) hr'
      refine ⟨hres.1.trans hid, hres.2.imp ?_⟩
      rintro i (hi | ⟨hsome, hlo, hhi⟩)
      · exact List.mem_append_left _ hi
      · refine List.mem_append_right _ (List.mem_map.mpr ⟨i, ?_, rfl⟩)
        rw [if_pos hsome]
        exact mem_indexRange.mpr ⟨hlo, hhi⟩

private theorem advertisedIndex_le_iff {r : Replicator} {box : BallotBox}
    (h : box.lastCommittedIndex < box.pendingIndex) :
    r.advertisedIndex box ≤ box.lastCommittedIndex ↔
      r.ooStartIndex < box.pendingIndex ∧ r.ooStartIndex ≤ box.lastCommittedIndex + 1 := by
  unfold Replicator.advertisedIndex BallotBox.ooCommitedIndexes
  dsimp only
  split <;> omega

private theorem sound_filled_iff {flags : Flags} {s : Leader} {event : Event} {r : Replicator}
    {request : AppendEntriesRequest} (h : Inv s) (hlead : s.box.pendingIndex ≠ 0)
    (hfill : s.filled flags event = some (r, request)) :
    Sound s request ↔
      r.ooStartIndex < s.box.pendingIndex ∧ r.ooStartIndex ≤ s.box.lastCommittedIndex + 1 := by
  cases event with
  | operate op => cases hfill
  | start serverId peer term log => cases hfill
  | rpcReturned peer callId failed request response => cases hfill
  | send peer log callId send =>
    obtain ⟨r', hr', hfill⟩ := Option.bind_eq_some_iff.mp hfill
    obtain ⟨q, hq, hfill⟩ := Option.bind_eq_some_iff.mp hfill
    cases hfill
    obtain ⟨hid, hmarks⟩ := h.windows peer r (unlocked_eq_some hr')
    have hadv : Advertises r s.box request := by
      cases send with
      | emptyEntries isHeartbeat => exact advertises_sendEmptyEntries hq
      | entries => exact advertises_sendEntries hq
      | continueSending timedOut => exact advertises_continueSending hq
    rw [← advertisedIndex_le_iff (h.pending hlead), ← hadv.committedIndex]
    refine ⟨fun hs => hs.committedIndex, fun hle => ⟨hle, ?_, ?_⟩⟩
    · intro i hi
      rw [hadv.committedOoIndex, Replicator.advertisedOoIndexes, List.mem_filter] at hi
      exact h.flags.granted _ ((mem_flagged _ _ _).mp hi.1)
    · intro i hi
      rw [hadv.committedOoIndex, Replicator.advertisedOoIndexes, List.mem_filter] at hi
      rw [hadv.peerId, hid]
      exact hmarks i (by simpa using hi.2)

/-- In every orderly run, the leader's requests are all sound exactly when every send
found the peer's window behind the commits. -/
theorem requests_sound_iff (flags : Flags) (events : List Event)
    (hord : Guarded (Leader.step flags) Orderly .new events) :
    RequestsSound flags events ↔
      Guarded (Leader.step flags) (WindowBehind flags) .new events := by
  have hinv : ∀ pre event post s, events = pre ++ event :: post →
      runEvents (Leader.step flags) .new pre = some s → Inv s := by
    rintro pre event post s rfl hrun
    exact invariant_of_step inv_step inv_new (guarded_append_left hord) hrun
  rw [guarded_iff]
  constructor
  · rintro h pre event post s hsplit hrun ⟨r, request⟩ hfill hlead
    have hsound := h pre event post s r request hsplit hrun hlead hfill
    exact (sound_filled_iff (hinv pre event post s hsplit hrun) hlead hfill).mp hsound
  · intro h pre event post s r request hsplit hrun hlead hfill
    have hbehind := h pre event post s hsplit hrun ⟨r, request⟩ hfill hlead
    exact (sound_filled_iff (hinv pre event post s hsplit hrun) hlead hfill).mpr hbehind

section FirstHeartbeat

private def leaderId : PeerId := ⟨1, 8000, 0⟩

private def followerId : PeerId := ⟨2, 8000, 0⟩

private def emptyLog : LogView := ⟨fun _ => 0, fun _ => none, 1, 0⟩

private def wideFlags : Flags := ⟨1024, 1024, 524288⟩

/-- A new leader of an empty log and its first heartbeat. -/
private def firstHeartbeat : List Event :=
  [.start leaderId followerId 2 emptyLog, .operate (.resetPendingIndex 1),
    .send followerId emptyLog 0 (.emptyEntries true)]

theorem firstHeartbeat_not_sound : ¬ RequestsSound wideFlags firstHeartbeat := by
  intro h
  have hsound := h (firstHeartbeat.take 2) _ [] _ _ _ rfl rfl (by decide) rfl
  exact absurd hsound.committedIndex (by decide)

/-- Index 1 is committed, and index 3 is granted before index 2. -/
private def committedHeartbeat : List Event :=
  [.start leaderId followerId 2 emptyLog, .operate (.resetPendingIndex 1),
    .operate (.appendPendingTask .three none), .operate (.appendPendingTask .three none),
    .operate (.appendPendingTask .three none), .operate (.commitAt [1] leaderId),
    .operate (.commitAt [1] followerId), .operate (.commitAt [3] followerId),
    .operate (.commitAt [3] leaderId), .send followerId emptyLog 0 (.emptyEntries true)]

theorem committedHeartbeat_sound : RequestsSound wideFlags committedHeartbeat ∧
    (runEvents (Leader.step wideFlags) .new committedHeartbeat).map
      (fun s => (s.box.lastCommittedIndex, s.box.committedIndexQueue)) = some (1, [false, true]) :=
  ⟨(requests_sound_iff wideFlags committedHeartbeat (by decide)).mpr (by decide), by decide⟩

end FirstHeartbeat

end HitConsistency.Replication.AdvertisedCommit
