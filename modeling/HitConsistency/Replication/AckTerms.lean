/- GID: HitConsistency/Replication/AckTerms
   digest: When the acknowledgements a leader counts are of its own term. -/

import HitConsistency.Base.GuardedRuns
import HitConsistency.Replication.ReplicatorGroups

set_option autoImplicit false
set_option relaxedAutoImplicit false

namespace HitConsistency.Replication.AckTerms

open HitConsistency.Base.GuardedRuns
open HitConsistency.Commit.PendingQueues
open HitConsistency.Group.Peers
open HitConsistency.Log.Entry
open HitConsistency.Node.RoleState
open HitConsistency.Replication.PeerSender
open HitConsistency.Replication.ReplicatorGroups

section Senders

variable {r r' : Replicator} (box : BallotBox) (log : LogView) (flags : Flags) (callId : Nat)

/-- A replicator behind a send: same peer and term, and a request of that term. -/
structure Sends (r : Replicator) (result : Replicator × Option AppendEntriesRequest) : Prop where
  peerId : result.1.peerId = r.peerId
  term : result.1.term = r.term
  request : ∀ request ∈ result.2, request.term = r.term

private theorem fill_term {prevLogIndex : Int} {isHeartbeat : Bool} {request : AppendEntriesRequest}
    (h : r.fillCommonFields box log prevLogIndex isHeartbeat = some request) :
    request.term = r.term := by
  unfold Replicator.fillCommonFields at h
  dsimp only at h
  split at h
  · cases h
  · cases h
    rfl

private theorem sends_empty (r : Replicator) (isHeartbeat : Bool) :
    Sends r (r.sendEmptyEntries box log callId isHeartbeat) := by
  unfold Replicator.sendEmptyEntries
  split
  · exact ⟨rfl, rfl, by simp⟩
  · rename_i request hfill
    have hterm := fill_term box log hfill
    split
    · exact ⟨rfl, rfl, by simpa using hterm⟩
    · exact ⟨rfl, rfl, by simpa using hterm⟩

private theorem wait_options (flags : Flags) (log : LogView) (r : Replicator) :
    (r.waitMoreEntries flags log).peerId = r.peerId ∧
      (r.waitMoreEntries flags log).term = r.term := by
  unfold Replicator.waitMoreEntries
  dsimp only
  split_ifs <;> exact ⟨rfl, rfl⟩

private theorem sends_entries (r : Replicator) : Sends r (r.sendEntries flags box log callId) := by
  unfold Replicator.sendEntries
  split
  · exact ⟨rfl, rfl, by simp⟩
  · split
    · exact ⟨rfl, rfl, by simp⟩
    · rename_i request hfill
      have hterm := fill_term box log hfill
      split
      · split
        · exact ⟨rfl, rfl, by simp⟩
        · exact ⟨(wait_options flags log r).1, (wait_options flags log r).2, by simp⟩
      · refine ⟨(wait_options flags log _).1, (wait_options flags log _).2, ?_⟩
        intro other ho
        cases ho
        exact hterm

private theorem sends_continue (r : Replicator) (timedOut : Bool) :
    Sends r (r.continueSending flags box log callId timedOut) := by
  unfold Replicator.continueSending
  split
  · split
    · exact ⟨rfl, rfl, by simp⟩
    · exact sends_empty box log callId r false
  · split
    · exact ⟨rfl, rfl, by simp⟩
    · have hsends : Sends { r with waiting := false }
          (({ r with waiting := false } : Replicator).sendEntries flags box log callId) :=
        sends_entries box log flags callId _
      exact ⟨hsends.peerId, hsends.term, hsends.request⟩

private theorem returned_options {failed : Bool} {request : AppendEntriesRequest}
    {response : AppendEntriesResponse} {handled : Replicator.Handled}
    (h : r.onRpcReturned callId failed request response = some handled)
    (hr' : handled.replicator = some r') : r'.peerId = r.peerId ∧ r'.term = r.term := by
  unfold Replicator.onRpcReturned at h
  split at h
  · cases h
    cases hr'
    exact ⟨rfl, rfl⟩
  · dsimp only at h
    split at h
    · cases h
      cases hr'
      exact ⟨rfl, rfl⟩
    · split at h
      · split at h
        · cases h
          cases hr'
        · cases h
          cases hr'
          exact ⟨rfl, rfl⟩
      · split at h
        · cases h
          cases hr'
          exact ⟨rfl, rfl⟩
        · obtain ⟨next, -, rfl⟩ := Option.map_eq_some_iff.mp h
          cases hr'
          exact ⟨rfl, rfl⟩

end Senders

/-- The replicator belongs to the leadership that the node is in. -/
structure Current (n : ReplicatingNode) (l : LiveReplicator) : Prop where
  leading : n.state.leading = true
  leadership : l.leadership = n.leaderships
  term : l.replicator.term = n.currentTerm

/-- Everything alive is of this leadership, and everything counted was of its term. -/
structure Earned (n : ReplicatingNode) : Prop where
  live : ∀ l ∈ n.live, Current n l
  counted : ∀ c ∈ n.counted, c.requestTerm = c.currentTerm

/-- Every other peer of the configuration has a replicator of this leadership. -/
def Covered (n : ReplicatingNode) : Prop :=
  ∀ peer ∈ n.conf.peers, peer ≠ n.serverId →
    ∃ l ∈ n.live, l.replicator.peerId = peer ∧ Current n l

/-- Every step down finds no live replicator, every election finds no other peer in the
map and opens every channel. The terms fit into 31 bits. -/
def Stopped (n : ReplicatingNode) : ReplicatingNode.Event → Prop
  | .stepDown term => n.live.length = 0 ∧ term < 2 ^ 31
  | .increaseTermTo position => ∀ newTerm ∈ n.increases[position]?, n.currentTerm < newTerm →
      n.live.length = 0 ∧ newTerm < 2 ^ 31
  | .becomeLeader _ channel => ∀ peer ∈ n.conf.peers, peer ≠ n.serverId →
      n.group.contains peer = false ∧ channel peer = true
  | _ => True

instance stoppedDecidable (n : ReplicatingNode) : ∀ event, Decidable (Stopped n event)
  | .stepDown _ => inferInstanceAs (Decidable (_ ∧ _))
  | .increaseTermTo position =>
      match h : n.increases[position]? with
      | none => .isTrue (by simp [Stopped, h])
      | some newTerm =>
          decidable_of_iff (n.currentTerm < newTerm → n.live.length = 0 ∧ newTerm < 2 ^ 31)
            (by simp [Stopped, h])
  | .becomeLeader _ channel => inferInstanceAs (Decidable (∀ peer ∈ n.conf.peers,
      peer ≠ n.serverId → n.group.contains peer = false ∧ channel peer = true))
  | .electSelf | .apply | .rpcReturned _ _ _ _ | .heartbeatReturned _ _ _ | .heartbeat _ _
  | .continueSending _ _ _ => inferInstanceAs (Decidable True)

structure Inv (n : ReplicatingNode) : Prop where
  termRange : 0 ≤ n.currentTerm ∧ n.currentTerm < 2 ^ 31
  groupTerm : n.group.term ≤ n.currentTerm
  idle : n.state.leading = false → n.live = []
  live : ∀ l ∈ n.live, l.id < n.nextId ∧ l.leadership = n.leaderships ∧
    l.replicator.term = n.currentTerm
  calls : ∀ call ∈ n.calls, call.id < n.nextId ∧
    ∀ l ∈ n.live, l.id = call.id → call.request.term = n.currentTerm
  counted : ∀ c ∈ n.counted, c.requestTerm = c.currentTerm

section Steps

variable {n n' : ReplicatingNode}

theorem Inv.earned (h : Inv n) : Earned n := by
  refine ⟨?_, h.counted⟩
  intro l hl
  have hleading : n.state.leading = true := by
    cases hstate : n.state.leading with
    | true => rfl
    | false =>
      rw [h.idle hstate] at hl
      cases hl
  exact ⟨hleading, (h.live l hl).2.1, (h.live l hl).2.2⟩

theorem Inv.sent (h : Inv n) {l : LiveReplicator} (hl : l ∈ n.live) {id : Nat} (hid : l.id = id)
    {result : Replicator × Option AppendEntriesRequest} (hterm : result.1.term = l.replicator.term)
    (hrequest : ∀ request ∈ result.2, request.term = l.replicator.term) :
    Inv (n.sent id result) := by
  have hcurrent := (h.live l hl).2.2
  refine { h with idle := ?_, live := ?_, calls := ?_ }
  · intro hstate
    show n.live.map (ReplicatingNode.replace id result.1) = []
    rw [h.idle hstate, List.map_nil]
  · intro l' hl'
    obtain ⟨old, hold, rfl⟩ := List.mem_map.mp hl'
    obtain ⟨hlt, hleadership, hsame⟩ := h.live old hold
    rw [ReplicatingNode.replace]
    split
    · exact ⟨hlt, hleadership, hterm.trans hcurrent⟩
    · exact ⟨hlt, hleadership, hsame⟩
  · have hback : ∀ l' ∈ n.live.map (ReplicatingNode.replace id result.1),
        ∃ old ∈ n.live, old.id = l'.id := by
      intro l' hl'
      obtain ⟨old, hold, rfl⟩ := List.mem_map.mp hl'
      refine ⟨old, hold, ?_⟩
      rw [ReplicatingNode.replace]
      split <;> rfl
    intro call hcall
    rcases List.mem_append.mp hcall with hcall | hcall
    · refine ⟨(h.calls call hcall).1, ?_⟩
      intro l' hl' heq
      obtain ⟨old, hold, hoid⟩ := hback l' hl'
      exact (h.calls call hcall).2 old hold (hoid.trans heq)
    · rw [Option.mem_toList] at hcall
      obtain ⟨request, hr, rfl⟩ := Option.map_eq_some_iff.mp hcall
      exact ⟨hid ▸ (h.live l hl).1, fun _ _ _ => (hrequest request hr).trans hcurrent⟩

theorem Inv.destroy (h : Inv n) (id : Nat) : Inv (n.destroy id) := by
  have hsub : ∀ l ∈ (n.destroy id).live, l ∈ n.live := by
    intro l hl
    exact List.mem_of_mem_filter hl
  refine { h with idle := ?_, live := ?_, calls := ?_ }
  · intro hstate
    show n.live.filter _ = []
    rw [h.idle hstate, List.filter_nil]
  · intro l hl
    exact h.live l (hsub l hl)
  · intro call hcall
    refine ⟨(h.calls call hcall).1, ?_⟩
    intro l hl
    exact (h.calls call hcall).2 l (hsub l hl)

theorem Inv.count (h : Inv n) {peer : PeerId} {requestTerm : Int}
    (hterm : requestTerm = n.currentTerm) {indexes : Option (List Int)}
    (hcount : n.count peer requestTerm indexes = some n') :
    Inv n' ∧ n'.live = n.live ∧ n'.currentTerm = n.currentTerm := by
  cases indexes with
  | none =>
    cases hcount
    exact ⟨h, rfl, rfl⟩
  | some indexes =>
    obtain ⟨outcome, -, rfl⟩ := Option.map_eq_some_iff.mp hcount
    refine ⟨{ h with counted := ?_ }, rfl, rfl⟩
    intro c hc
    rcases List.mem_append.mp hc with hc | hc
    · exact h.counted c hc
    · rw [List.mem_singleton.mp hc]
      exact hterm

theorem Inv.stepDown (h : Inv n) (hlive : n.live = []) {term : Int} (hfit : term < 2 ^ 31) :
    Inv (n.stepDownNode term) := by
  have hterm := h.termRange
  have hle : n.currentTerm ≤ (n.toRole.stepDown term).currentTerm ∧
      (n.toRole.stepDown term).currentTerm < 2 ^ 31 := by
    unfold Role.stepDown
    dsimp only
    split
    · rename_i hlt
      show n.currentTerm ≤ toInt32 term ∧ toInt32 term < 2 ^ 31
      rw [toInt32_of_lt (by omega) hfit]
      omega
    · exact ⟨le_rfl, hterm.2⟩
  have hnone : (n.stepDownNode term).live = [] := hlive
  refine
    { termRange := ⟨hterm.1.trans hle.1, hle.2⟩
      groupTerm := h.groupTerm.trans hle.1
      idle := fun _ => hnone
      live := ?_
      calls := ?_
      counted := h.counted }
  · intro l hl
    rw [hnone] at hl
    cases hl
  · intro call hcall
    refine ⟨(h.calls call hcall).1, ?_⟩
    intro l hl
    rw [hnone] at hl
    cases hl

theorem Inv.onRpcReturned {flags : Flags} (h : Inv n) {call : Call} (hcall : call ∈ n.calls)
    {failed : Bool} {response : AppendEntriesResponse} {log : LogView}
    (hrun : n.onRpcReturned flags call failed response log = some n') : Inv n' := by
  unfold ReplicatingNode.onRpcReturned at hrun
  cases hfind : n.live.find? fun l => l.id = call.id with
  | none =>
    rw [hfind] at hrun
    cases hrun
    exact h
  | some l =>
    rw [hfind] at hrun
    have hl : l ∈ n.live := List.mem_of_find?_eq_some hfind
    have hid : l.id = call.id := by simpa using List.find?_some hfind
    obtain ⟨handled, hhandled, hrun⟩ := Option.bind_eq_some_iff.mp hrun
    obtain ⟨n₁, hcount, hrun⟩ := Option.bind_eq_some_iff.mp hrun
    obtain ⟨h₁, hlive, hterm⟩ := h.count ((h.calls call hcall).2 l hl hid) hcount
    have h₂ : Inv { n₁ with increases := n₁.increases ++ handled.increaseTermTo.toList } :=
      { h₁ with }
    have hl₂ : l ∈ n₁.live := hlive ▸ hl
    dsimp only at hrun
    cases hr : handled.replicator with
    | none =>
      rw [hr] at hrun
      cases hrun
      exact h₂.destroy call.id
    | some r =>
      rw [hr] at hrun
      have hoptions := (returned_options call.callId hhandled hr).2
      cases hfollow : handled.follow with
      | nothing =>
        rw [hfollow] at hrun
        cases hrun
        exact h₂.sent hl₂ hid hoptions (fun _ hn => by cases hn)
      | sendEmptyEntries =>
        rw [hfollow] at hrun
        cases hrun
        have hsends := sends_empty n₁.ballotBox log n₁.nextCall r false
        exact h₂.sent hl₂ hid (hsends.term.trans hoptions)
          fun request hrq => (hsends.request request hrq).trans hoptions
      | sendEntries =>
        rw [hfollow] at hrun
        cases hrun
        have hsends := sends_entries n₁.ballotBox log flags n₁.nextCall r
        exact h₂.sent hl₂ hid (hsends.term.trans hoptions)
          fun request hrq => (hsends.request request hrq).trans hoptions

theorem Inv.sendBy (h : Inv n) (id : Nat)
    {send : Replicator → Replicator × Option AppendEntriesRequest} (hsend : ∀ r, Sends r (send r)) :
    Inv (n.sendBy id send) := by
  unfold ReplicatingNode.sendBy
  cases hfind : n.live.find? fun l => l.id = id with
  | none => exact h
  | some l =>
    have hid : l.id = id := by simpa using List.find?_some hfind
    exact h.sent (List.mem_of_find?_eq_some hfind) hid (hsend _).term (hsend _).request

theorem Inv.onHeartbeatReturned (h : Inv n) (id : Nat) (failed : Bool)
    (response : AppendEntriesResponse) : Inv (n.onHeartbeatReturned id failed response) := by
  unfold ReplicatingNode.onHeartbeatReturned
  split
  · exact h
  · split
    · have h' : Inv { n with increases := n.increases ++ [response.term] } := { h with }
      exact h'.destroy id
    · exact h

/-- What an election has in hand while it adds replicators. -/
structure Electing (n : ReplicatingNode) : Prop where
  inv : Inv n
  leading : n.state.leading = true
  groupTerm : n.group.term = n.currentTerm

private theorem added_inv (h : Electing n) (log : LogView) (peer : PeerId) :
    Inv { n with
      group := { n.group with rmap := n.group.rmap ++ [(peer, n.nextId)] }
      live := n.live ++ [⟨n.nextId, n.leaderships,
        Replicator.start n.serverId peer n.group.term log⟩]
      nextId := n.nextId + 1 } := by
  obtain ⟨hinv, hleading, hgroup⟩ := h
  refine
    { termRange := hinv.termRange
      groupTerm := hinv.groupTerm
      idle := ?_
      live := ?_
      calls := ?_
      counted := hinv.counted }
  · intro hstate
    change n.state.leading = false at hstate
    rw [hleading] at hstate
    cases hstate
  · intro l hl
    show l.id < n.nextId + 1 ∧ _
    rcases List.mem_append.mp hl with hl | hl
    · have hold := hinv.live l hl
      exact ⟨by omega, hold.2⟩
    · rw [List.mem_singleton.mp hl]
      exact ⟨Nat.lt_succ_self _, rfl, hgroup⟩
  · intro call hcall
    have hold := hinv.calls call hcall
    refine ⟨Nat.lt_succ_of_lt hold.1, ?_⟩
    intro l hl heq
    rcases List.mem_append.mp hl with hl | hl
    · exact hold.2 l hl heq
    · rw [List.mem_singleton.mp hl] at heq
      change n.nextId = call.id at heq
      have := hold.1
      omega

private theorem addReplicator_spec (log : LogView) (channel : PeerId → Bool) (h : Electing n)
    (peer : PeerId) :
    Electing (n.addReplicator log channel peer) ∧
      (n.addReplicator log channel peer).toRole = n.toRole ∧
      (n.addReplicator log channel peer).conf = n.conf ∧
      (∀ p, n.group.contains p = false → p ≠ peer →
        (n.addReplicator log channel peer).group.contains p = false) ∧
      (∀ l ∈ n.live, l ∈ (n.addReplicator log channel peer).live) ∧
      (n.group.contains peer = false → channel peer = true →
        ∃ l ∈ (n.addReplicator log channel peer).live, l.replicator.peerId = peer) := by
  unfold ReplicatingNode.addReplicator
  cases hin : n.group.contains peer with
  | true => exact ⟨h, rfl, rfl, fun p hp _ => hp, fun l hl => hl, fun hno => by cases hno⟩
  | false =>
    cases hopen : channel peer with
    | false => exact ⟨h, rfl, rfl, fun p hp _ => hp, fun l hl => hl, fun _ hno => by cases hno⟩
    | true =>
      have hadded := added_inv h log peer
      have hsends := sends_empty n.ballotBox log n.nextCall
        (Replicator.start n.serverId peer n.group.term log) false
      have hnew : (⟨n.nextId, n.leaderships, Replicator.start n.serverId peer n.group.term log⟩ :
          LiveReplicator) ∈ n.live ++ [⟨n.nextId, n.leaderships,
            Replicator.start n.serverId peer n.group.term log⟩] := by simp
      refine ⟨⟨hadded.sent hnew rfl hsends.term hsends.request, h.leading, h.groupTerm⟩, rfl, rfl,
        ?_, ?_, ?_⟩
      · intro p hp hne
        show (n.group.rmap ++ [(peer, n.nextId)]).any _ = false
        rw [List.any_append]
        have hfirst : (n.group.rmap.any fun item => item.1 = p) = false := hp
        rw [hfirst]
        simp [Ne.symm hne]
      · intro l hl
        refine List.mem_map.mpr ⟨l, List.mem_append_left _ hl, ?_⟩
        have hid := (h.inv.live l hl).1
        exact if_neg (by omega)
      · intro _ _
        refine ⟨_, List.mem_map.mpr ⟨_, hnew, rfl⟩, ?_⟩
        rw [ReplicatingNode.replace, if_pos rfl]
        exact hsends.peerId

private theorem addReplicators_spec (log : LogView) (channel : PeerId → Bool) {peers : List PeerId}
    (h : Electing n) (hnodup : peers.Nodup)
    (hfree : ∀ peer ∈ peers, n.group.contains peer = false ∧ channel peer = true) :
    Electing (peers.foldl (ReplicatingNode.addReplicator log channel) n) ∧
      (peers.foldl (ReplicatingNode.addReplicator log channel) n).toRole = n.toRole ∧
      (peers.foldl (ReplicatingNode.addReplicator log channel) n).conf = n.conf ∧
      (∀ l ∈ n.live, l ∈ (peers.foldl (ReplicatingNode.addReplicator log channel) n).live) ∧
      ∀ peer ∈ peers, ∃ l ∈ (peers.foldl (ReplicatingNode.addReplicator log channel) n).live,
        l.replicator.peerId = peer := by
  induction peers generalizing n with
  | nil => exact ⟨h, rfl, rfl, fun l hl => hl, fun peer hp => (List.not_mem_nil hp).elim⟩
  | cons first rest ih =>
    obtain ⟨hnew, hrest⟩ := List.nodup_cons.mp hnodup
    obtain ⟨helect, hrole, hconf, hother, hkeep, hcover⟩ :=
      addReplicator_spec log channel h first
    have hfree' : ∀ peer ∈ rest, (n.addReplicator log channel first).group.contains peer = false ∧
        channel peer = true := by
      intro peer hp
      have hpeer := hfree peer (List.mem_cons_of_mem _ hp)
      refine ⟨hother peer hpeer.1 ?_, hpeer.2⟩
      rintro rfl
      exact hnew hp
    obtain ⟨helect', hrole', hconf', hkeep', hcover'⟩ := ih helect hrest hfree'
    refine ⟨helect', hrole'.trans hrole, hconf'.trans hconf, fun l hl => hkeep' l (hkeep l hl), ?_⟩
    intro peer hp
    rcases List.mem_cons.mp hp with rfl | hp
    · have hpeer := hfree peer List.mem_cons_self
      obtain ⟨l, hl, hpeerId⟩ := hcover hpeer.1 hpeer.2
      exact ⟨l, hkeep' l hl, hpeerId⟩
    · exact hcover' peer hp

theorem Inv.becomeLeader (h : Inv n) (hidle : n.state.leading = false) {log : LogView}
    {channel : PeerId → Bool}
    (hfree : ∀ peer ∈ n.conf.peers, peer ≠ n.serverId →
      n.group.contains peer = false ∧ channel peer = true) :
    Inv (n.becomeLeader log channel) ∧ Covered (n.becomeLeader log channel) := by
  have hgroup : (n.group.resetTerm n.currentTerm).term = n.currentTerm := by
    unfold ReplicatorGroup.resetTerm
    split
    · have := h.groupTerm
      omega
    · rfl
  have hmap : ∀ peer, (n.group.resetTerm n.currentTerm).contains peer = n.group.contains peer := by
    intro peer
    unfold ReplicatorGroup.resetTerm
    split <;> rfl
  have helecting : Electing { n with
      state := .leader
      leaderId := n.serverId
      group := n.group.resetTerm n.currentTerm
      leaderships := n.leaderships + 1 } := by
    have hnone := h.idle hidle
    refine ⟨{ h with groupTerm := hgroup.le, idle := fun _ => hnone, live := ?_ }, rfl, hgroup⟩
    intro l hl
    change l ∈ n.live at hl
    rw [hnone] at hl
    cases hl
  have hothers : ∀ peer ∈ n.conf.peers.filter (· ≠ n.serverId),
      (n.group.resetTerm n.currentTerm).contains peer = false ∧ channel peer = true := by
    intro peer hp
    obtain ⟨hmem, hne⟩ := List.mem_filter.mp hp
    rw [hmap]
    exact hfree peer hmem (by simpa using hne)
  obtain ⟨helected, hrole, hconf, -, hcover⟩ :=
    addReplicators_spec log channel helecting (n.conf.nodup.filter _) hothers
  refine ⟨{ helected.inv with }, ?_⟩
  intro peer hpeer hne
  have hserver : (n.becomeLeader log channel).serverId = n.serverId := by
    have hsame := congrArg Role.serverId hrole
    exact hsame
  have hpeers : (n.becomeLeader log channel).conf = n.conf := hconf
  rw [hpeers] at hpeer
  rw [hserver] at hne
  obtain ⟨l, hl, hpeerId⟩ := hcover peer (List.mem_filter.mpr ⟨hpeer, by simpa using hne⟩)
  have hlive := (helected.inv.live l hl).2
  exact ⟨l, hl, hpeerId, helected.leading, hlive.1, hlive.2⟩

theorem inv_step {flags : Flags} (h : Inv n) {event : ReplicatingNode.Event}
    (hstopped : Stopped n event) (hstep : n.step flags event = some n') : Inv n' := by
  cases event with
  | stepDown term =>
    cases hstep
    exact h.stepDown (List.length_eq_zero_iff.mp hstopped.1) hstopped.2
  | electSelf =>
    simp only [ReplicatingNode.step] at hstep
    split at hstep
    · cases hstep
      exact h
    · rename_i hidle
      split at hstep
      · cases hstep
      · rename_i hfit
        cases hstep
        have hnone := h.idle (Bool.eq_false_iff.mpr hidle)
        have hterm := h.termRange
        have hgroup := h.groupTerm
        refine
          { termRange := ?_
            groupTerm := ?_
            idle := fun _ => hnone
            live := ?_
            calls := ?_
            counted := h.counted }
        · show 0 ≤ n.currentTerm + 1 ∧ n.currentTerm + 1 < 2 ^ 31
          omega
        · show n.group.term ≤ n.currentTerm + 1
          omega
        · intro l hl
          change l ∈ n.live at hl
          rw [hnone] at hl
          cases hl
        · intro call hcall
          refine ⟨(h.calls call hcall).1, ?_⟩
          intro l hl
          change l ∈ n.live at hl
          rw [hnone] at hl
          cases hl
  | becomeLeader log channel =>
    simp only [ReplicatingNode.step] at hstep
    split at hstep
    · cases hstep
      exact h
    · rename_i hidle
      cases hstep
      exact (h.becomeLeader (Bool.eq_false_iff.mpr hidle) hstopped).1
  | apply =>
    simp only [ReplicatingNode.step] at hstep
    split at hstep
    · cases hstep
      exact { h with }
    · cases hstep
      exact h
  | rpcReturned position failed response log =>
    simp only [ReplicatingNode.step] at hstep
    split at hstep
    · rename_i call hcall
      exact h.onRpcReturned (List.mem_of_getElem? hcall) hstep
    · cases hstep
      exact h
  | heartbeatReturned id failed response =>
    cases hstep
    exact h.onHeartbeatReturned id failed response
  | heartbeat id log =>
    cases hstep
    refine h.sendBy id ?_
    intro r
    have hsends := sends_empty n.ballotBox log n.nextCall r true
    exact ⟨hsends.peerId, hsends.term, fun _ hn => by cases hn⟩
  | continueSending id timedOut log =>
    cases hstep
    exact h.sendBy id fun r => sends_continue n.ballotBox log flags n.nextCall r timedOut
  | increaseTermTo position =>
    simp only [ReplicatingNode.step] at hstep
    split at hstep
    · rename_i newTerm hnew
      split at hstep
      · cases hstep
        exact h
      · rename_i hlt
        cases hstep
        obtain ⟨hlive, hfit⟩ := hstopped newTerm hnew (by omega)
        exact h.stepDown (List.length_eq_zero_iff.mp hlive) hfit
    · cases hstep
      exact h

end Steps

theorem inv_init (serverId : PeerId) (conf : Configuration) :
    Inv (ReplicatingNode.init serverId conf) where
  termRange := by show (0 : Int) ≤ 1 ∧ (1 : Int) < 2 ^ 31; omega
  groupTerm := by show (0 : Int) ≤ 1; omega
  idle := fun _ => rfl
  live := fun _ hl => (List.not_mem_nil hl).elim
  calls := fun _ hc => (List.not_mem_nil hc).elim
  counted := fun _ hc => (List.not_mem_nil hc).elim

/-- In every run whose step downs find no live replicator and whose elections find no
other peer in the map, all that is alive and all that is counted is of the current
leadership and term, and an election gives every other peer a replicator. -/
theorem acks_earned_when_stopped (flags : Flags) (serverId : PeerId) (conf : Configuration)
    (events : List ReplicatingNode.Event) (n : ReplicatingNode)
    (hstopped : Guarded (ReplicatingNode.step flags) Stopped (.init serverId conf) events)
    (hrun : runEvents (ReplicatingNode.step flags) (.init serverId conf) events = some n) :
    Earned n ∧
      ∀ log channel, Stopped n (.becomeLeader log channel) → n.state.leading = false →
        ∀ n', n.step flags (.becomeLeader log channel) = some n' → Earned n' ∧ Covered n' := by
  have hinv : Inv n := invariant_of_step (fun s event t h hguard hstep => inv_step h hguard hstep)
    (inv_init serverId conf) hstopped hrun
  refine ⟨hinv.earned, ?_⟩
  intro log channel hguard hidle n' hstep
  have hleader : n' = n.becomeLeader log channel := by
    simpa [ReplicatingNode.step, hidle] using hstep.symm
  rw [hleader]
  obtain ⟨hnew, hcovered⟩ := hinv.becomeLeader hidle hguard
  exact ⟨hnew.earned, hcovered⟩

private def nodeA : PeerId := ⟨1, 8000, 0⟩

private def nodeB : PeerId := ⟨2, 8001, 0⟩

private def emptyLog : LogView := ⟨fun _ => 0, fun _ => none, 1, 0⟩

/-- The entries 1 to `last`, all of one term. -/
private def entriesOf (term last : Int) : LogView :=
  ⟨fun i => if 1 ≤ i ∧ i ≤ last then term else 0,
    fun i => if 1 ≤ i ∧ i ≤ last then some (sampleEntry i term) else none, 1, last⟩

private def sampleFlags : Flags := ⟨1024, 1024, 1024⟩

private def pairConf : Configuration := ⟨[nodeA, nodeB], by decide⟩

/-- The only replicator is destroyed by a higher term before its node steps down. -/
private def cleanEnd : List ReplicatingNode.Event :=
  [.electSelf, .becomeLeader emptyLog fun _ => true, .apply,
    .rpcReturned 0 false ⟨2, true, 0⟩ (entriesOf 2 1),
    .rpcReturned 1 false ⟨2, true, 1⟩ (entriesOf 2 1), .heartbeatReturned 0 false ⟨5, false, 0⟩,
    .increaseTermTo 0]

theorem cleanEnd_earned :
    (runEvents (ReplicatingNode.step sampleFlags) (.init nodeA pairConf) cleanEnd).map
      (fun n => (n.currentTerm, n.live.length, n.counted)) = some (5, 0, [⟨2, 2, [1]⟩]) ∧
    ∀ n, runEvents (ReplicatingNode.step sampleFlags) (.init nodeA pairConf) cleanEnd = some n →
      Earned n :=
  ⟨by decide +kernel, fun n hrun =>
    (acks_earned_when_stopped sampleFlags nodeA pairConf cleanEnd n (by decide +kernel) hrun).1⟩

private def sampleConf : Configuration := ⟨[nodeA, nodeB, ⟨3, 8002, 0⟩], by decide⟩

/-- A leader of term 2 sends two entries and steps down. The leader of term 3 replaces both by
its own entry 1, and the node leads again in term 4 with an entry 2 of its own when the
response of term 2 arrives. -/
private def lateAck : List ReplicatingNode.Event :=
  [.electSelf, .becomeLeader emptyLog fun _ => true, .apply, .apply,
    .rpcReturned 0 false ⟨2, true, 0⟩ (entriesOf 2 2), .continueSending 0 false (entriesOf 2 2),
    .stepDown 3, .electSelf, .becomeLeader (entriesOf 3 1) fun _ => true, .apply,
    .rpcReturned 3 false ⟨2, true, 2⟩ (entriesOf 3 1)]

theorem lateAck_not_earned :
    ¬ ∀ n, runEvents (ReplicatingNode.step sampleFlags) (.init nodeA sampleConf) lateAck = some n →
      Earned n := by
  intro hall
  have hcounted : (runEvents (ReplicatingNode.step sampleFlags) (.init nodeA sampleConf)
      lateAck).map ReplicatingNode.counted = some [⟨2, 4, [1, 2]⟩] := by decide +kernel
  obtain ⟨n, hrun, hn⟩ := Option.map_eq_some_iff.mp hcounted
  have hsame := (hall n hrun).counted ⟨2, 4, [1, 2]⟩ (by rw [hn]; simp)
  exact absurd hsame (by decide)

end HitConsistency.Replication.AckTerms
