/- GID: HitConsistency/Election/OneLeader
   digest: No two nodes become leader in one term, through unlock windows and crashes. -/

import HitConsistency.Election.VoteProtocol

set_option autoImplicit false
set_option relaxedAutoImplicit false

namespace HitConsistency.Election.OneLeader

open HitConsistency.Base.GuardedRuns
open HitConsistency.Base.MajorityQuorum
open HitConsistency.Commit.BallotCount
open HitConsistency.Election.VoteProtocol
open HitConsistency.Group.Peers
open HitConsistency.Log.Entry
open HitConsistency.Node.RoleState

section Roles

/-- What stepping down can do to a role: the term and the saved vote stay, or the term
rises and the saved vote is cleared. -/
structure Moves (r r' : Role) : Prop where
  serverId : r'.serverId = r.serverId
  state : r'.state = r.state ∨ r'.state = .follower
  term : (r'.currentTerm = r.currentTerm ∧ r'.votedId = r.votedId ∧
      r'.metaStorage = r.metaStorage) ∨
    (r.currentTerm < r'.currentTerm ∧ r'.currentTerm < 2 ^ 31 ∧ r'.votedId = .empty ∧
      r'.metaStorage = ⟨r'.currentTerm, .empty⟩ ∧ r'.state = .follower)

variable {r r' r'' : Role}

theorem Moves.refl (r : Role) : Moves r r := ⟨rfl, .inl rfl, .inl ⟨rfl, rfl, rfl⟩⟩

theorem Moves.trans (h : Moves r r') (h' : Moves r' r'') : Moves r r'' := by
  refine ⟨h'.serverId.trans h.serverId, ?_, ?_⟩
  · rcases h'.state with hs | hs
    · rw [hs]
      exact h.state
    · exact .inr hs
  · rcases h'.term with ⟨ht, hv, hm⟩ | ⟨hlt, hfit, hv, hm, hs⟩
    · rw [ht, hv, hm]
      rcases h.term with hsame | ⟨hlt, hfit, hv', hm', hs'⟩
      · exact .inl hsame
      · refine .inr ⟨hlt, hfit, hv', hm', ?_⟩
        rcases h'.state with hs | hs
        · rw [hs, hs']
        · exact hs
    · refine .inr ⟨?_, hfit, hv, hm, hs⟩
      rcases h.term with ⟨ht, -, -⟩ | ⟨hlt', -, -⟩
      · omega
      · omega

theorem stepDown_moves (h0 : 0 ≤ r.currentTerm) {term : Int} (hfit : term < 2 ^ 31) :
    Moves r (r.stepDown term) := by
  unfold Role.stepDown
  dsimp only
  split
  · rename_i hlt
    have hterm : toInt32 term = term := toInt32_of_lt (by omega) hfit
    refine ⟨rfl, .inr rfl, .inr ⟨?_, ?_, rfl, ?_, rfl⟩⟩
    · show r.currentTerm < toInt32 term
      omega
    · show toInt32 term < 2 ^ 31
      omega
    · show (⟨term, .empty⟩ : MetaStorage) = ⟨toInt32 term, .empty⟩
      rw [hterm]
  · exact ⟨rfl, .inr rfl, .inl ⟨rfl, rfl, rfl⟩⟩

private theorem term_of_stepDown {term : Int} (hr : r.currentTerm < 2 ^ 31)
    (h : (r.stepDown term).metaStorage.term < 2 ^ 31) : term < 2 ^ 31 := by
  unfold Role.stepDown at h
  dsimp only at h
  split at h
  · exact h
  · omega

private theorem checkStepDown_moves (h0 : 0 ≤ r.currentTerm) {term : Int} (hfit : term < 2 ^ 31)
    (serverId : PeerId) : Moves r (r.checkStepDown term serverId) := by
  have hfollow : ∀ r' : Role, Moves r r' →
      Moves r (if r'.leaderId.isEmpty then { r' with leaderId := serverId } else r') := by
    intro r' h
    split
    · exact ⟨h.serverId, h.state, h.term⟩
    · exact h
  have hdown := stepDown_moves h0 hfit
  have hfirst : Moves r (if r.currentTerm < term then r.stepDown term
      else if r.state ≠ .follower then r.stepDown term
      else if r.leaderId.isEmpty then r.stepDown term
      else r) := by
    split
    · exact hdown
    · split
      · exact hdown
      · split
        · exact hdown
        · exact .refl r
  exact hfollow _ hfirst

end Roles

/-- The candidate each node gave its vote of each term to. -/
abbrev Ledger := PeerId → Int → Option PeerId

/-- A majority gave this candidate its votes of the term. -/
def Won (conf : Configuration) (votes : Ledger) (candidate : PeerId) (term : Int) : Prop :=
  ∃ voters : Finset PeerId, Majority conf.members voters ∧
    ∀ voter ∈ voters, votes voter term = some candidate

def record (votes : Ledger) (voter : PeerId) (term : Int) (candidate : PeerId) : Ledger :=
  fun u t => if u = voter ∧ t = term then some candidate else votes u t

/-- The requests for the current term may have gone out, or are about to. -/
def Campaigning (n : ElectionNode) : Prop :=
  n.state = .candidate ∨ .electSelf n.currentTerm ∈ n.waiting ∨ n.saving = true

/-- The node has voted for itself, and its ballot counts votes of this term only. -/
structure Campaign (conf : Configuration) (votes : Ledger) (id : PeerId) (n : ElectionNode) :
    Prop where
  port : id.port = 8000
  voted : n.votedId = id
  counted : ∃ voters : Finset PeerId, Counts n.voteCtx conf none voters ∧
    ∀ voter ∈ voters, votes voter n.currentTerm = some id

/-- A vote request to this node comes from another one, at port 8000. -/
structure Foreign (id : PeerId) (request : RequestVoteRequest) : Prop where
  port : request.serverId.port = 8000
  other : request.serverId ≠ id
  peerId : request.peerId = id

structure NodeInv (conf : Configuration) (votes : Ledger) (id : PeerId) (n : ElectionNode) :
    Prop where
  serverId : n.serverId = id
  termRange : 0 ≤ n.currentTerm ∧ n.currentTerm < 2 ^ 31
  metaRange : 0 ≤ n.metaStorage.term ∧ n.metaStorage.term ≤ n.currentTerm
  /-- The vote is on disk, or it is one for the node itself that is yet to be saved. -/
  disk : n.metaStorage = ⟨n.currentTerm, n.votedId⟩ ∨
    (n.votedId = id ∧ id.port = 8000 ∧ n.metaStorage.term < n.currentTerm)
  later : ∀ t, n.metaStorage.term < t → votes id t = none
  saved : votes id n.metaStorage.term =
    if n.metaStorage.votedfor.isEmpty then none else some n.metaStorage.votedfor
  prevotes : ∀ request, .prevote request ∈ n.waiting → request.serverId.port = 8000
  requests : ∀ request, .requestVote request ∈ n.waiting → Foreign id request
  elections : ∀ t, .electSelf t ∈ n.waiting → t ≤ n.currentTerm
  campaign : Campaigning n → Campaign conf votes id n

def TermFits (term : Int) : Prop := 0 ≤ term ∧ term < 2 ^ 31

def MessageInv (votes : Ledger) : Message → Prop
  | .prevote request => request.serverId.port = 8000
  | .prevoteResponse receiver _ _ response => receiver.port = 8000 ∧ TermFits response.term
  | .requestVote request => Foreign request.peerId request ∧ TermFits request.term
  | .requestVoteResponse receiver peer term response =>
      TermFits response.term ∧ (response.granted = true → votes peer term = some receiver)

structure Inv (conf : Configuration) (votes : Ledger) (s : Cluster) : Prop where
  nodes : ∀ id, NodeInv conf votes id (s.nodes id)
  network : ∀ message ∈ s.network, MessageInv votes message
  elected : ∀ winner ∈ s.elected, Won conf votes winner.1 winner.2

/-- The ledger after a handler: the same, but for a new vote of the node, now on its disk. -/
structure Grows (id : PeerId) (n : ElectionNode) (votes votes' : Ledger) : Prop where
  keep : ∀ u t c, votes u t = some c → votes' u t = some c
  others : ∀ u, u ≠ id → ∀ t, votes' u t = votes u t
  fresh : ∀ t c, votes' id t = some c → votes id t = some c ∨ n.metaStorage = ⟨t, c⟩

structure Good (conf : Configuration) (votes : Ledger) (id : PeerId) (effect : Effect) : Prop where
  node : NodeInv conf votes id effect.node
  sent : ∀ message ∈ effect.sent, MessageInv votes message
  leads : effect.leads = true → Won conf votes id effect.node.currentTerm

section Frame

variable {conf : Configuration} {votes votes' : Ledger} {id : PeerId} {n' : ElectionNode}

theorem Grows.refl (id : PeerId) (n' : ElectionNode) (votes : Ledger) : Grows id n' votes votes :=
  ⟨fun _ _ _ h => h, fun _ _ _ => rfl, fun _ _ h => .inl h⟩

private theorem grows_record {term : Int} {candidate : PeerId}
    (h : votes id term = none ∨ votes id term = some candidate)
    (hdisk : n'.metaStorage = ⟨term, candidate⟩) :
    Grows id n' votes (record votes id term candidate) := by
  refine ⟨fun u t c hc => ?_, fun u hu t => ?_, fun t c hc => ?_⟩
  · unfold record
    split
    · rename_i heq
      obtain ⟨rfl, rfl⟩ := heq
      rcases h with h | h
      · rw [h] at hc
        cases hc
      · rw [← hc, h]
    · exact hc
  · unfold record
    rw [if_neg fun heq => hu heq.1]
  · unfold record at hc
    split at hc
    · rename_i heq
      cases hc
      exact .inr (hdisk.trans (by rw [heq.2]))
    · exact .inl hc

theorem Won.keep {candidate : PeerId} {term : Int} (h : Won conf votes candidate term)
    (hg : Grows id n' votes votes') : Won conf votes' candidate term := by
  obtain ⟨voters, hmajority, hvotes⟩ := h
  exact ⟨voters, hmajority, fun voter hv => hg.keep _ _ _ (hvotes voter hv)⟩

theorem MessageInv.keep {message : Message} (h : MessageInv votes message)
    (hg : Grows id n' votes votes') : MessageInv votes' message := by
  cases message with
  | prevote request => exact h
  | prevoteResponse receiver peer term response => exact h
  | requestVote request => exact h
  | requestVoteResponse receiver peer term response =>
    exact ⟨h.1, fun hgranted => hg.keep _ _ _ (h.2 hgranted)⟩

theorem NodeInv.keep {u : PeerId} {n : ElectionNode} (h : NodeInv conf votes u n) (hu : u ≠ id)
    (hg : Grows id n' votes votes') : NodeInv conf votes' u n :=
  { h with
    later := fun t ht => by rw [hg.others u hu, h.later t ht]
    saved := by rw [hg.others u hu, h.saved]
    campaign := fun hc => by
      obtain ⟨hport, hself, voters, hcounts, hvotes⟩ := h.campaign hc
      exact ⟨hport, hself, voters, hcounts, fun voter hv => hg.keep _ _ _ (hvotes voter hv)⟩ }

private theorem inv_put {s : Cluster} (h : Inv conf votes s) {effect : Effect}
    (hg : Grows id effect.node votes votes') (heffect : Good conf votes' id effect) :
    Inv conf votes' (s.put id effect) := by
  refine ⟨fun u => ?_, fun message hm => ?_, fun winner hw => ?_⟩
  · show NodeInv conf votes' u (Function.update s.nodes id effect.node u)
    by_cases hu : u = id
    · rw [hu, Function.update_self]
      exact heffect.node
    · rw [Function.update_of_ne hu]
      exact (h.nodes u).keep hu hg
  · rcases List.mem_append.mp hm with hm | hm
    · exact (h.network message hm).keep hg
    · exact heffect.sent message hm
  · rcases List.mem_append.mp hw with hw | hw
    · exact (h.elected winner hw).keep hg
    · split at hw
      · rename_i hleads
        rw [List.mem_singleton.mp hw]
        exact heffect.leads hleads
      · cases hw

end Frame

section Handlers

variable {conf : Configuration} {votes : Ledger} {id : PeerId} {n : ElectionNode}

theorem Good.quiet (h : NodeInv conf votes id n) : Good conf votes id n.quiet :=
  ⟨h, fun _ hm => (List.not_mem_nil hm).elim, fun hl => Bool.noConfusion hl⟩

theorem NodeInv.moves (h : NodeInv conf votes id n) (hfree : n.saving = false) {r : Role}
    (hm : Moves n.toRole r) : NodeInv conf votes id { n with toRole := r } := by
  have hterm := h.termRange
  have hmeta := h.metaRange
  rcases hm.term with ⟨ht, hv, hms⟩ | ⟨hlt, hfit, hv, hms, hs⟩
  · refine
      { serverId := hm.serverId.trans h.serverId
        termRange := by rw [ht]; exact h.termRange
        metaRange := by rw [hms, ht]; exact h.metaRange
        disk := by rw [hms, ht, hv]; exact h.disk
        later := by rw [hms]; exact h.later
        saved := by rw [hms]; exact h.saved
        prevotes := h.prevotes
        requests := h.requests
        elections := by rw [ht]; exact h.elections
        campaign := fun hc => ?_ }
    have hold : Campaigning n := by
      rcases hc with hstate | hwait | hsave
      · rcases hm.state with hsame | hfollow
        · exact .inl (hsame.symm.trans hstate)
        · rw [hfollow] at hstate
          cases hstate
      · rw [ht] at hwait
        exact .inr (.inl hwait)
      · exact .inr (.inr hsave)
    obtain ⟨hport, hself, hcounted⟩ := h.campaign hold
    refine ⟨hport, hv.trans hself, ?_⟩
    show ∃ voters : Finset PeerId, Counts n.voteCtx conf none voters ∧
      ∀ voter ∈ voters, votes voter r.currentTerm = some id
    rw [ht]
    exact hcounted
  · have hnone : votes id r.currentTerm = none := h.later _ (by omega)
    refine
      { serverId := hm.serverId.trans h.serverId
        termRange := ⟨by show 0 ≤ r.currentTerm; omega, hfit⟩
        metaRange := by rw [hms]; exact ⟨by show 0 ≤ r.currentTerm; omega, le_rfl⟩
        disk := .inl (by rw [hms, hv])
        later := fun t ht => h.later t ?_
        saved := by rw [hms]; simpa [PeerId.isEmpty, PeerId.empty] using hnone
        prevotes := h.prevotes
        requests := h.requests
        elections := fun t ht => ?_
        campaign := fun hc => ?_ }
    · rw [hms] at ht
      exact lt_of_le_of_lt hmeta.2 (hlt.trans ht)
    · have := h.elections t ht
      show t ≤ r.currentTerm
      omega
    · exfalso
      rcases hc with hstate | hwait | hsave
      · rw [hs] at hstate
        cases hstate
      · have : r.currentTerm ≤ n.currentTerm := h.elections _ hwait
        omega
      · rw [hfree] at hsave
        cases hsave

theorem NodeInv.stepDown (h : NodeInv conf votes id n) (hfree : n.saving = false) {term : Int}
    (hfit : term < 2 ^ 31) : NodeInv conf votes id { n with toRole := n.stepDown term } :=
  h.moves hfree (stepDown_moves h.termRange.1 hfit)

theorem NodeInv.mono (h : NodeInv conf votes id n) {waiting : List Waiting}
    (hsub : ∀ thread ∈ waiting, thread ∈ n.waiting) :
    NodeInv conf votes id { n with waiting := waiting } :=
  { h with
    prevotes := fun request hr => h.prevotes request (hsub _ hr)
    requests := fun request hr => h.requests request (hsub _ hr)
    elections := fun t ht => h.elections t (hsub _ ht)
    campaign := fun hc =>
      have ⟨hport, hself, hcounted⟩ := h.campaign (hc.imp_right (Or.imp_left (hsub _)))
      ⟨hport, hself, hcounted⟩ }

theorem NodeInv.wait (h : NodeInv conf votes id n) {thread : Waiting}
    (hprevote : ∀ request, thread = .prevote request → request.serverId.port = 8000)
    (hrequest : ∀ request, thread = .requestVote request → Foreign id request)
    (helect : ∀ t, thread ≠ .electSelf t) : Good conf votes id (n.wait thread) := by
  refine .quiet { h with
    prevotes := fun request hr => ?_
    requests := fun request hr => ?_
    elections := fun t ht => ?_
    campaign := fun hc => ?_ }
  · rcases List.mem_append.mp hr with hr | hr
    · exact h.prevotes request hr
    · exact hprevote request (List.mem_singleton.mp hr).symm
  · rcases List.mem_append.mp hr with hr | hr
    · exact h.requests request hr
    · exact hrequest request (List.mem_singleton.mp hr).symm
  · rcases List.mem_append.mp ht with ht | ht
    · exact h.elections t ht
    · exact absurd (List.mem_singleton.mp ht).symm (helect t)
  · have hold : Campaigning n := by
      refine hc.imp_right (Or.imp_left fun hw => ?_)
      rcases List.mem_append.mp hw with hw | hw
      · exact hw
      · exact absurd (List.mem_singleton.mp hw).symm (helect _)
    obtain ⟨hport, hself, hcounted⟩ := h.campaign hold
    exact ⟨hport, hself, hcounted⟩

theorem NodeInv.prevoteCtx (h : NodeInv conf votes id n) (prevoteCtx : Ballot) :
    NodeInv conf votes id { n with prevoteCtx := prevoteCtx } :=
  { h with
    campaign := fun hc =>
      have ⟨hport, hself, hcounted⟩ := h.campaign hc
      ⟨hport, hself, hcounted⟩ }

private theorem prevote_good (h : NodeInv conf votes id n) (lastLogId : LogId) :
    Good conf votes id (n.prevote conf lastLogId) := by
  unfold ElectionNode.prevote
  split
  · exact .quiet h
  · rename_i hport
    refine ⟨h.prevoteCtx _, fun message hm => ?_, fun hl => Bool.noConfusion hl⟩
    obtain ⟨request, hr, rfl⟩ := List.mem_map.mp hm
    obtain ⟨peer, -, rfl⟩ := List.mem_map.mp hr
    exact not_not.mp hport

private theorem electSelf_good (h : NodeInv conf votes id n) (hport : id.port = 8000)
    {effect : Effect}
    (heffect : n.electSelf conf = some effect) : Good conf votes id effect := by
  have hterm := h.termRange
  have hmeta := h.metaRange
  unfold ElectionNode.electSelf at heffect
  split at heffect
  · cases heffect
    exact .quiet h
  · split at heffect
    · cases heffect
    · cases heffect
      refine .quiet
        { serverId := h.serverId
          termRange := by show 0 ≤ n.currentTerm + 1 ∧ n.currentTerm + 1 < 2 ^ 31; omega
          metaRange := by
            show 0 ≤ n.metaStorage.term ∧ n.metaStorage.term ≤ n.currentTerm + 1
            omega
          disk := .inr ⟨h.serverId, hport, by show n.metaStorage.term < n.currentTerm + 1; omega⟩
          later := h.later
          saved := h.saved
          prevotes := fun request hr => ?_
          requests := fun request hr => ?_
          elections := fun t ht => ?_
          campaign := fun _ => ⟨hport, h.serverId, ∅, counts_init conf none, by simp⟩ }
      · exact h.prevotes request (by simpa using hr)
      · exact h.requests request (by simpa using hr)
      · show t ≤ n.currentTerm + 1
        rcases List.mem_append.mp ht with ht | ht
        · have := h.elections t ht
          omega
        · cases List.mem_singleton.mp ht
          exact le_rfl

private theorem not_isEmpty_of_port (h : id.port = 8000) : id.isEmpty = false := by
  simp [PeerId.isEmpty, h]

private theorem sendVoteRequests_good (h : NodeInv conf votes id n) {oldTerm : Int}
    (hcamp : oldTerm = n.currentTerm → Campaign conf votes id n) (lastLogId : LogId) :
    Good conf votes id (n.sendVoteRequests conf oldTerm lastLogId) := by
  unfold ElectionNode.sendVoteRequests
  split
  · exact .quiet h
  · rename_i hterm
    obtain ⟨hport, hself, hcounted⟩ := hcamp (not_not.mp hterm)
    refine ⟨{ h with campaign := fun _ => ⟨hport, hself, hcounted⟩ }, fun message hm => ?_,
      fun hl => Bool.noConfusion hl⟩
    obtain ⟨request, hr, rfl⟩ := List.mem_map.mp hm
    obtain ⟨peer, hpeer, rfl⟩ := List.mem_map.mp hr
    have hne : peer ≠ n.serverId := by simpa using (List.mem_filter.mp hpeer).2
    refine ⟨⟨?_, hne.symm, rfl⟩, h.termRange⟩
    show n.serverId.port = 8000
    rw [h.serverId]
    exact hport

private theorem won_of_granted {b : Ballot} {voters : Finset PeerId} {term : Int}
    (hcounts : Counts b conf none voters) (hvotes : ∀ voter ∈ voters, votes voter term = some id)
    (hgranted : b.granted = true) : Won conf votes id term :=
  ⟨voters, ((granted_iff hcounts).mp hgranted).1, hvotes⟩

private theorem leader_good (h : NodeInv conf votes id n) (hcamp : Campaign conf votes id n)
    (hgranted : n.voteCtx.granted = true) : Good conf votes id n.becomeLeader := by
  obtain ⟨hport, hself, voters, hcounts, hvotes⟩ := hcamp
  exact ⟨{ h with campaign := fun _ => ⟨hport, hself, voters, hcounts, hvotes⟩ },
    fun _ hm => (List.not_mem_nil hm).elim, fun _ => won_of_granted hcounts hvotes hgranted⟩

private theorem saveVote_keeps (h : NodeInv conf votes id n) (hsaving : n.saving = true) :
    ∃ votes', Grows id n.saveVote.node votes votes' ∧ Good conf votes' id n.saveVote := by
  obtain ⟨hport, hself, voters, hcounts, hvotes⟩ := h.campaign (.inr (.inr hsaving))
  have hfree : votes id n.currentTerm = none ∨ votes id n.currentTerm = some id := by
    rcases h.disk with hdisk | ⟨-, -, hlt⟩
    · refine .inr ?_
      have := h.saved
      rw [hdisk, hself, not_isEmpty_of_port hport] at this
      exact this
    · exact .inl (h.later _ hlt)
  have hdisk : n.saveVote.node.metaStorage = ⟨n.currentTerm, id⟩ := by
    rw [← h.serverId]
    unfold ElectionNode.saveVote
    dsimp only
    split <;> rfl
  have hgrows := grows_record hfree hdisk
  have hnew : record votes id n.currentTerm id id n.currentTerm = some id := by simp [record]
  refine ⟨record votes id n.currentTerm id, hgrows, ?_⟩
  have hcounts' := counts_grant hcounts n.serverId .new
  have hvotes' : ∀ voter ∈ insert n.serverId voters,
      record votes id n.currentTerm id voter n.currentTerm = some id := by
    intro voter hv
    rcases Finset.mem_insert.mp hv with rfl | hv
    · rw [h.serverId]
      exact hnew
    · exact hgrows.keep _ _ _ (hvotes voter hv)
  have hcamp : Campaign conf (record votes id n.currentTerm id) id { n with
      saving := false
      metaStorage := ⟨n.currentTerm, n.serverId⟩
      voteCtx := (n.voteCtx.grant n.serverId .new).1 } :=
    ⟨hport, hself, _, hcounts', hvotes'⟩
  have hnode : NodeInv conf (record votes id n.currentTerm id) id { n with
      saving := false
      metaStorage := ⟨n.currentTerm, n.serverId⟩
      voteCtx := (n.voteCtx.grant n.serverId .new).1 } := by
    refine
      { h with
        metaRange := ⟨h.termRange.1, le_rfl⟩
        disk := .inl ?_
        later := fun t ht => ?_
        saved := ?_
        campaign := fun _ => hcamp }
    · show (⟨n.currentTerm, n.serverId⟩ : MetaStorage) = ⟨n.currentTerm, n.votedId⟩
      rw [hself, h.serverId]
    · change n.currentTerm < t at ht
      have hne : ¬ (id = id ∧ t = n.currentTerm) := by omega
      rw [record, if_neg hne]
      exact h.later t (lt_of_le_of_lt h.metaRange.2 ht)
    · show record votes id n.currentTerm id id n.currentTerm = _
      rw [hnew, h.serverId, not_isEmpty_of_port hport]
      rfl
  unfold ElectionNode.saveVote
  dsimp only
  split
  · rename_i hgranted
    exact leader_good hnode hcamp hgranted
  · exact .quiet hnode

private theorem answerRequestVote_good (h : NodeInv conf votes id n) {request : RequestVoteRequest}
    (hforeign : Foreign id request) : Good conf votes id (n.answerRequestVote request) := by
  refine ⟨h, fun message hm => ?_, fun hl => Bool.noConfusion hl⟩
  rw [List.mem_singleton.mp hm]
  refine ⟨h.termRange, fun hgranted => ?_⟩
  obtain ⟨hterm, hvoted⟩ := of_decide_eq_true hgranted
  have hdisk := h.disk.resolve_right fun hself => hforeign.other (hvoted.symm.trans hself.1)
  have hsaved := h.saved
  rw [hdisk, hvoted, not_isEmpty_of_port hforeign.port] at hsaved
  rw [hforeign.peerId, hterm]
  exact hsaved

private theorem castVote_keeps (h : NodeInv conf votes id n) {request : RequestVoteRequest}
    (hforeign : Foreign id request) (lastLogId : LogId) :
    ∃ votes', Grows id (n.castVote request lastLogId).node votes votes' ∧
      Good conf votes' id (n.castVote request lastLogId) := by
  unfold ElectionNode.castVote
  split
  · exact ⟨votes, .refl id _ votes, answerRequestVote_good h hforeign⟩
  · rename_i hterm
    split
    · rename_i hvote
      have hempty : n.votedId = .empty := (PeerId.isEmpty_iff _).mp hvote.2
      have hnoself : ¬ (n.votedId = id ∧ id.port = 8000) := by
        rintro ⟨hself, hport⟩
        rw [hself, not_isEmpty_of_port hport] at hvote
        exact Bool.noConfusion hvote.2
      have hdisk := h.disk.resolve_right fun hself => hnoself ⟨hself.1, hself.2.1⟩
      have hnone : votes id n.currentTerm = none := by
        have hsaved := h.saved
        rw [hdisk, hvote.2] at hsaved
        exact hsaved
      have hsame : n.stepDown request.term =
          { n.toRole with leaderId := .empty, state := .follower } := by
        rw [not_not.mp hterm, Role.stepDown]
        exact if_neg (lt_irrefl _)
      dsimp only
      rw [hsame, hdisk]
      refine ⟨record votes id n.currentTerm request.serverId, grows_record (.inl hnone) rfl, ?_⟩
      refine answerRequestVote_good ?_ hforeign
      refine
        { serverId := h.serverId
          termRange := h.termRange
          metaRange := ⟨h.termRange.1, le_rfl⟩
          disk := .inl rfl
          later := fun t ht => ?_
          saved := ?_
          prevotes := h.prevotes
          requests := h.requests
          elections := h.elections
          campaign := fun hc => ?_ }
      · change n.currentTerm < t at ht
        have hne : ¬ (id = id ∧ t = n.currentTerm) := by omega
        rw [record, if_neg hne]
        exact h.later t (lt_of_le_of_lt h.metaRange.2 ht)
      · show record votes id n.currentTerm request.serverId id n.currentTerm = _
        rw [not_isEmpty_of_port hforeign.port]
        simp [record]
      · exfalso
        have hold : Campaigning n := by
          rcases hc with hstate | hwait | hsave
          · cases hstate
          · exact .inr (.inl hwait)
          · exact .inr (.inr hsave)
        have hcamp := h.campaign hold
        exact hnoself ⟨hcamp.voted, hcamp.port⟩
    · exact ⟨votes, .refl id _ votes, answerRequestVote_good h hforeign⟩

private theorem handleRequestVote_good (h : NodeInv conf votes id n) (hfree : n.saving = false)
    {request : RequestVoteRequest} (hforeign : Foreign id request) (hfit : TermFits request.term) :
    Good conf votes id (n.handleRequestVote request) := by
  have hwait : ∀ n' : ElectionNode, NodeInv conf votes id n' →
      Good conf votes id (n'.wait (.requestVote request)) :=
    fun n' h' => h'.wait (fun _ he => by cases he) (fun _ he => by cases he; exact hforeign)
      fun _ he => by cases he
  unfold ElectionNode.handleRequestVote
  split
  · exact answerRequestVote_good h hforeign
  · split
    · exact hwait _ (h.stepDown hfree hfit.2)
    · exact hwait _ h

private theorem answerPrevote_good (h : NodeInv conf votes id n) {request : RequestVoteRequest}
    (hport : request.serverId.port = 8000) (granted : Bool) :
    Good conf votes id (n.answerPrevote request granted) := by
  refine ⟨h, fun message hm => ?_, fun hl => Bool.noConfusion hl⟩
  rw [List.mem_singleton.mp hm]
  exact ⟨hport, h.termRange⟩

private theorem handlePrevote_good (h : NodeInv conf votes id n) {request : RequestVoteRequest}
    (hport : request.serverId.port = 8000) : Good conf votes id (n.handlePrevote request) := by
  unfold ElectionNode.handlePrevote
  split
  · exact answerPrevote_good h hport false
  · exact h.wait (fun _ he => by cases he; exact hport) (fun _ he => by cases he)
      fun _ he => by cases he

private theorem handlePreVoteResponse_good (h : NodeInv conf votes id n) (hfree : n.saving = false)
    (hport : id.port = 8000) {peer : PeerId} {term : Int} {response : RequestVoteResponse}
    (hfit : TermFits response.term) {effect : Effect}
    (heffect : n.handlePreVoteResponse conf peer term response = some effect) :
    Good conf votes id effect := by
  unfold ElectionNode.handlePreVoteResponse at heffect
  split at heffect
  · cases heffect
    exact .quiet h
  · split at heffect
    · cases heffect
      exact .quiet h
    · split at heffect
      · cases heffect
        exact .quiet (h.stepDown hfree hfit.2)
      · split at heffect
        · dsimp only at heffect
          split at heffect
          · exact electSelf_good (h.prevoteCtx _) hport heffect
          · cases heffect
            exact .quiet (h.prevoteCtx _)
        · cases heffect
          exact .quiet h

private theorem handleRequestVoteResponse_good (h : NodeInv conf votes id n)
    (hfree : n.saving = false)
    {peer : PeerId} {term : Int} {response : RequestVoteResponse} (hfit : TermFits response.term)
    (hvote : response.granted = true → votes peer term = some id) :
    Good conf votes id (n.handleRequestVoteResponse peer term response) := by
  unfold ElectionNode.handleRequestVoteResponse
  split
  · exact .quiet h
  · rename_i hstate
    split
    · exact .quiet h
    · rename_i hterm
      split
      · exact .quiet (h.stepDown hfree hfit.2)
      · split
        · rename_i hgranted
          obtain ⟨hport, hself, voters, hcounts, hvotes⟩ := h.campaign (.inl (not_not.mp hstate))
          have hvotes' : ∀ voter ∈ insert peer voters, votes voter n.currentTerm = some id := by
            intro voter hv
            rcases Finset.mem_insert.mp hv with rfl | hv
            · rw [← not_not.mp hterm]
              exact hvote hgranted
            · exact hvotes voter hv
          have hcamp : Campaign conf votes id
              { n with voteCtx := (n.voteCtx.grant peer .new).1 } :=
            ⟨hport, hself, _, counts_grant hcounts peer .new, hvotes'⟩
          have hnode : NodeInv conf votes id { n with voteCtx := (n.voteCtx.grant peer .new).1 } :=
            { h with campaign := fun _ => hcamp }
          dsimp only
          split
          · rename_i hdone
            exact leader_good hnode hcamp hdone
          · exact .quiet hnode
        · exact .quiet h

theorem receiveAppendEntries_moves (h : NodeInv conf votes id n) {term : Int} {serverId : PeerId}
    (hfit : term < 2 ^ 31)
    (hmeta : (n.receiveAppendEntries term serverId).metaStorage.term < 2 ^ 31) :
    ∃ r, n.receiveAppendEntries term serverId = { n with toRole := r } ∧ Moves n.toRole r := by
  have hmoves := checkStepDown_moves h.termRange.1 hfit serverId
  unfold ElectionNode.receiveAppendEntries at hmeta ⊢
  split
  · exact ⟨n.toRole, rfl, .refl _⟩
  · rename_i hge
    rw [if_neg hge] at hmeta
    dsimp only at hmeta ⊢
    refine ⟨_, rfl, ?_⟩
    split
    · rename_i hconflict
      rw [if_pos hconflict] at hmeta
      have hrange : 0 ≤ (n.checkStepDown term serverId).currentTerm ∧
          (n.checkStepDown term serverId).currentTerm < 2 ^ 31 := by
        have hterm := h.termRange
        rcases hmoves.term with ⟨hsame, -⟩ | ⟨hlt, hsmall, -⟩
        · rw [hsame]
          exact hterm
        · exact ⟨by omega, hsmall⟩
      exact hmoves.trans (stepDown_moves hrange.1 (term_of_stepDown hrange.2 hmeta))
    · exact hmoves

private theorem receiveAppendEntries_inv (h : NodeInv conf votes id n) (hfree : n.saving = false)
    {term : Int} {serverId : PeerId} (hfit : term < 2 ^ 31)
    (hmeta : (n.receiveAppendEntries term serverId).metaStorage.term < 2 ^ 31) :
    NodeInv conf votes id (n.receiveAppendEntries term serverId) := by
  obtain ⟨r, hr, hmoves⟩ := receiveAppendEntries_moves h hfit hmeta
  rw [hr]
  exact h.moves hfree hmoves

private theorem handleElectionTimeout_good (h : NodeInv conf votes id n) (hfree : n.saving = false)
    (lastLogId : LogId) : Good conf votes id (n.handleElectionTimeout conf lastLogId) := by
  unfold ElectionNode.handleElectionTimeout
  split
  · exact .quiet h
  · have hreset : NodeInv conf votes id { n with leaderId := .empty } :=
      h.moves hfree ⟨rfl, .inl rfl, .inl ⟨rfl, rfl, rfl⟩⟩
    exact prevote_good hreset lastLogId

private theorem handleVoteTimeout_good {stepDownWhenVoteTimedout : Bool}
    (h : NodeInv conf votes id n)
    (hfree : n.saving = false) {lastLogId : LogId} {effect : Effect}
    (heffect : n.handleVoteTimeout conf stepDownWhenVoteTimedout lastLogId = some effect) :
    Good conf votes id effect := by
  unfold ElectionNode.handleVoteTimeout at heffect
  split at heffect
  · cases heffect
    exact .quiet h
  · rename_i hstate
    split at heffect
    · cases heffect
      exact prevote_good (h.stepDown hfree h.termRange.2) lastLogId
    · exact electSelf_good h (h.campaign (.inl (not_not.mp hstate))).port heffect

private theorem boot_inv (h : NodeInv conf votes id n) :
    NodeInv conf votes id (.boot id n.metaStorage) := by
  have hterm := h.termRange
  have hmeta := h.metaRange
  have hsame : toInt32 n.metaStorage.term = n.metaStorage.term :=
    toInt32_of_lt hmeta.1 (by omega)
  refine
    { serverId := rfl
      termRange := ?_
      metaRange := ?_
      disk := .inl ?_
      later := h.later
      saved := h.saved
      prevotes := fun _ hr => (List.not_mem_nil hr).elim
      requests := fun _ hr => (List.not_mem_nil hr).elim
      elections := fun _ ht => (List.not_mem_nil ht).elim
      campaign := fun hc => ?_ }
  · show 0 ≤ toInt32 n.metaStorage.term ∧ toInt32 n.metaStorage.term < 2 ^ 31
    omega
  · show 0 ≤ n.metaStorage.term ∧ n.metaStorage.term ≤ toInt32 n.metaStorage.term
    omega
  · show n.metaStorage = ⟨toInt32 n.metaStorage.term, n.metaStorage.votedfor⟩
    rw [hsame]
  · exfalso
    rcases hc with hstate | hwait | hsave
    · cases hstate
    · cases hwait
    · cases hsave

private theorem resume_keeps (h : NodeInv conf votes id n) (position : Nat) (lastLogId : LogId) :
    ∃ votes', Grows id (Cluster.resume conf n position lastLogId).node votes votes' ∧
      Good conf votes' id (Cluster.resume conf n position lastLogId) := by
  unfold Cluster.resume
  split
  · rename_i thread hthread
    have hmem : thread ∈ n.waiting := List.mem_of_getElem? hthread
    have herased : NodeInv conf votes id { n with waiting := n.waiting.eraseIdx position } :=
      h.mono fun other ho => List.mem_of_mem_eraseIdx ho
    cases thread with
    | prevote request =>
      exact ⟨votes, .refl id _ votes, answerPrevote_good herased (h.prevotes request hmem) _⟩
    | requestVote request => exact castVote_keeps herased (h.requests request hmem) lastLogId
    | electSelf oldTerm =>
      refine ⟨votes, .refl id _ votes, sendVoteRequests_good herased (fun hold => ?_) lastLogId⟩
      obtain ⟨hport, hself, hcounted⟩ := h.campaign (.inr (.inl (hold ▸ hmem)))
      exact ⟨hport, hself, hcounted⟩
  · exact ⟨votes, .refl id _ votes, .quiet h⟩

end Handlers

section Run

variable {conf : Configuration} {stepDownWhenVoteTimedout : Bool}

/-- Terms stay below 2^31: a message of a leader does not raise one to the limit. -/
def TermsFit (s : Cluster) : Event → Prop
  | .appendEntries id term serverId => term < 2 ^ 31 ∧
      ((s.nodes id).receiveAppendEntries term serverId).metaStorage.term < 2 ^ 31
  | .increaseTermTo _ newTerm => newTerm < 2 ^ 31
  | _ => True

instance termsFitDecidable (s : Cluster) : ∀ event, Decidable (TermsFit s event)
  | .appendEntries _ _ _ => inferInstanceAs (Decidable (_ ∧ _))
  | .increaseTermTo _ _ => inferInstanceAs (Decidable (_ < _))
  | .electionTimeout _ _ | .voteTimeout _ _ | .receive _ | .resume _ _ _ | .saveVote _
  | .stepdownTimeout _ | .crash _ => inferInstanceAs (Decidable True)

/-- The ledger after a step: no vote is lost, and each new one is on the disk of its node. -/
structure Extends (votes votes' : Ledger) (s : Cluster) : Prop where
  keep : ∀ u t c, votes u t = some c → votes' u t = some c
  fresh : ∀ u t c, votes' u t = some c → votes u t = some c ∨ (s.nodes u).metaStorage = ⟨t, c⟩

theorem Extends.refl (votes : Ledger) (s : Cluster) : Extends votes votes s :=
  ⟨fun _ _ _ h => h, fun _ _ _ h => .inl h⟩

private theorem Grows.extendsPut {votes votes' : Ledger} {id : PeerId} {s : Cluster}
    {effect : Effect}
    (h : Grows id effect.node votes votes') : Extends votes votes' (s.put id effect) := by
  refine ⟨h.keep, fun u t c hc => ?_⟩
  by_cases hu : u = id
  · subst hu
    have hnode : (s.put u effect).nodes u = effect.node := Function.update_self ..
    rw [hnode]
    exact h.fresh t c hc
  · rw [h.others u hu] at hc
    exact .inl hc

private theorem inv_act {votes : Ledger} {s s' : Cluster} {id : PeerId}
    {handler : ElectionNode → Option Effect} (h : Inv conf votes s)
    (hhandler : (s.nodes id).saving = false → ∀ effect, handler (s.nodes id) = some effect →
      ∃ votes', Grows id effect.node votes votes' ∧ Good conf votes' id effect)
    (hact : s.act id handler = some s') :
    ∃ votes', Inv conf votes' s' ∧ Extends votes votes' s' := by
  unfold Cluster.act at hact
  split at hact
  · cases hact
    exact ⟨votes, h, .refl votes s⟩
  · rename_i hfree
    obtain ⟨effect, heffect, rfl⟩ := Option.map_eq_some_iff.mp hact
    obtain ⟨votes', hgrows, hgood⟩ := hhandler (Bool.eq_false_iff.mpr hfree) effect heffect
    exact ⟨votes', inv_put h hgrows hgood, hgrows.extendsPut⟩

private theorem good_of_eq {votes : Ledger} {id : PeerId} {effect effect' : Effect}
    (h : Good conf votes id effect) (he : some effect = some effect') :
    ∃ votes', Grows id effect'.node votes votes' ∧ Good conf votes' id effect' := by
  cases he
  exact ⟨votes, .refl id _ votes, h⟩

theorem inv_deliver {votes : Ledger} {s s' : Cluster} (h : Inv conf votes s) {message : Message}
    (hmessage : MessageInv votes message) (hdeliver : s.deliver conf message = some s') :
    ∃ votes', Inv conf votes' s' ∧ Extends votes votes' s' := by
  unfold Cluster.deliver at hdeliver
  cases message with
  | prevote request =>
    refine inv_act h (fun hfree effect he => ?_) hdeliver
    exact good_of_eq (handlePrevote_good (h.nodes _) hmessage) he
  | prevoteResponse receiver peer term response =>
    refine inv_act h (fun hfree effect he => ⟨votes, .refl _ _ votes, ?_⟩) hdeliver
    exact handlePreVoteResponse_good (h.nodes _) hfree hmessage.1 hmessage.2 he
  | requestVote request =>
    refine inv_act h (fun hfree effect he => ?_) hdeliver
    exact good_of_eq (handleRequestVote_good (h.nodes _) hfree hmessage.1 hmessage.2) he
  | requestVoteResponse receiver peer term response =>
    refine inv_act h (fun hfree effect he => ?_) hdeliver
    exact good_of_eq (handleRequestVoteResponse_good (h.nodes _) hfree hmessage.1 hmessage.2) he

theorem inv_step {votes : Ledger} {s s' : Cluster} {event : Event} (h : Inv conf votes s)
    (hfits : TermsFit s event)
    (hstep : s.step conf stepDownWhenVoteTimedout event = some s') :
    ∃ votes', Inv conf votes' s' ∧ Extends votes votes' s' := by
  unfold Cluster.step at hstep
  cases event with
  | electionTimeout id lastLogId =>
    refine inv_act h (fun hfree effect he => good_of_eq ?_ he) hstep
    exact handleElectionTimeout_good (h.nodes id) hfree lastLogId
  | voteTimeout id lastLogId =>
    refine inv_act h (fun hfree effect he => ⟨votes, .refl id _ votes, ?_⟩) hstep
    exact handleVoteTimeout_good (h.nodes id) hfree he
  | receive position =>
    dsimp only at hstep
    split at hstep
    · rename_i message hmessage
      exact inv_deliver h (h.network message (List.mem_of_getElem? hmessage)) hstep
    · cases hstep
      exact ⟨votes, h, .refl votes s⟩
  | resume id position lastLogId =>
    refine inv_act h (fun hfree effect he => ?_) hstep
    cases he
    exact resume_keeps (h.nodes id) position lastLogId
  | saveVote id =>
    dsimp only at hstep
    split at hstep
    · rename_i hsaving
      cases hstep
      obtain ⟨votes', hgrows, hgood⟩ := saveVote_keeps (h.nodes id) hsaving
      exact ⟨votes', inv_put h hgrows hgood, hgrows.extendsPut⟩
    · cases hstep
      exact ⟨votes, h, .refl votes s⟩
  | appendEntries id term serverId =>
    refine inv_act h (fun hfree effect he => good_of_eq (.quiet ?_) he) hstep
    exact receiveAppendEntries_inv (h.nodes id) hfree hfits.1 hfits.2
  | increaseTermTo id newTerm =>
    refine inv_act h (fun hfree effect he => good_of_eq (.quiet ?_) he) hstep
    unfold ElectionNode.increaseTermTo
    split
    · exact h.nodes id
    · exact (h.nodes id).stepDown hfree hfits
  | stepdownTimeout id =>
    refine inv_act h (fun hfree effect he => good_of_eq (.quiet ?_) he) hstep
    unfold ElectionNode.handleStepdownTimeout
    split
    · exact (h.nodes id).stepDown hfree (h.nodes id).termRange.2
    · exact h.nodes id
  | crash id =>
    cases hstep
    have hgrows := Grows.refl id (ElectionNode.boot id (s.nodes id).metaStorage).quiet.node votes
    exact ⟨votes, inv_put h hgrows (.quiet (boot_inv (h.nodes id))), hgrows.extendsPut⟩

theorem inv_init (conf : Configuration) : Inv conf (fun _ _ => none) Cluster.init := by
  refine ⟨fun id => ?_, fun _ hm => (List.not_mem_nil hm).elim,
    fun _ hw => (List.not_mem_nil hw).elim⟩
  refine
    { serverId := rfl
      termRange := by show 0 ≤ toInt32 1 ∧ toInt32 1 < 2 ^ 31; decide
      metaRange := by show (0 : Int) ≤ 1 ∧ 1 ≤ toInt32 1; decide
      disk := .inl rfl
      later := fun _ _ => rfl
      saved := rfl
      prevotes := fun _ hr => (List.not_mem_nil hr).elim
      requests := fun _ hr => (List.not_mem_nil hr).elim
      elections := fun _ ht => (List.not_mem_nil ht).elim
      campaign := fun hc => ?_ }
  exfalso
  rcases hc with hstate | hwait | hsave
  · cases hstate
  · cases hwait
  · cases hsave

theorem won_unique {votes : Ledger} {a b : PeerId} {term : Int} (ha : Won conf votes a term)
    (hb : Won conf votes b term) : a = b := by
  obtain ⟨votersA, hmajorityA, hvotesA⟩ := ha
  obtain ⟨votersB, hmajorityB, hvotesB⟩ := hb
  obtain ⟨voter, -, hA, hB⟩ := hmajorityA.common_member hmajorityB
  have hsame : some a = some b := by rw [← hvotesA voter hA, hvotesB voter hB]
  exact Option.some.inj hsame

end Run

/-- Among any nodes with one fixed stable configuration, through every interleaving of
timeouts, messages, unlocked windows and crashes, two executions of `become_leader` in
one term are by one node. -/
theorem one_leader_per_term (conf : Configuration) (stepDownWhenVoteTimedout : Bool)
    (events : List Event) (s : Cluster)
    (hfits : Guarded (Cluster.step conf stepDownWhenVoteTimedout) TermsFit Cluster.init events)
    (hrun : runEvents (Cluster.step conf stepDownWhenVoteTimedout) Cluster.init events = some s) :
    ∀ a b term, (a, term) ∈ s.elected → (b, term) ∈ s.elected → a = b := by
  have hkeep : ∀ s event s', (∃ votes, Inv conf votes s) → TermsFit s event →
      s.step conf stepDownWhenVoteTimedout event = some s' → ∃ votes, Inv conf votes s' :=
    fun s event s' ⟨votes, h⟩ hguard hstep =>
      have ⟨votes', h', _⟩ := inv_step h hguard hstep
      ⟨votes', h'⟩
  obtain ⟨votes, hinv⟩ := invariant_of_step hkeep ⟨_, inv_init conf⟩ hfits hrun
  intro a b term ha hb
  exact won_unique (hinv.elected _ ha) (hinv.elected _ hb)

private def nodeA : PeerId := ⟨1, 8000, 0⟩

private def nodeB : PeerId := ⟨2, 8000, 0⟩

private def sampleConf : Configuration := ⟨[nodeA, nodeB, ⟨3, 8001, 0⟩], by decide⟩

/-- `nodeB` raises its term, votes for `nodeA`, crashes and answers once more. -/
private def sampleEvents : List Event :=
  [.electionTimeout nodeA .zero, .receive 0, .resume nodeB 0 .zero, .receive 2,
    .resume nodeA 0 .zero, .receive 3, .saveVote nodeA, .resume nodeB 0 .zero, .crash nodeB,
    .receive 3, .resume nodeB 0 .zero, .receive 6]

theorem one_leader_per_term_sample :
    (runEvents (Cluster.step sampleConf true) Cluster.init sampleEvents).map Cluster.elected =
      some [(nodeA, 2)] ∧
    ∀ s, runEvents (Cluster.step sampleConf true) Cluster.init sampleEvents = some s →
      ∀ a b term, (a, term) ∈ s.elected → (b, term) ∈ s.elected → a = b :=
  ⟨by decide +kernel, fun s => one_leader_per_term sampleConf true sampleEvents s (by decide +kernel)⟩

end HitConsistency.Election.OneLeader
