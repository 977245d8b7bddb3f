/- GID: HitConsistency/Election/HandlerTurns
   digest: All that one handler of the vote protocol can do to its node, its disk and the network. -/

import HitConsistency.Election.OneLeader

set_option autoImplicit false
set_option relaxedAutoImplicit false

namespace HitConsistency.Election.HandlerTurns

open HitConsistency.Commit.BallotCount
open HitConsistency.Election.OneLeader
open HitConsistency.Election.VoteProtocol
open HitConsistency.Group.Peers
open HitConsistency.Log.Entry
open HitConsistency.Node.RoleState

/-- The term for which a handler asks for the last entry. -/
def threadTerm : Waiting → Int
  | .prevote _ => 0
  | .requestVote request => request.term
  | .electSelf oldTerm => oldTerm

/-- What a handler does, where `asked` are the vote requests that were sent to the node
and `answered` is what the handler that is resumed has asked the log for. -/
structure Turn (asked : RequestVoteRequest → Prop) (answered : Waiting → LogId → Prop)
    (n : ElectionNode) (effect : Effect) : Prop where
  term : n.currentTerm ≤ effect.node.currentTerm
  leading : effect.node.state.leading = true →
    effect.leads = true ∨ n.state.leading = true ∧ effect.node.currentTerm = n.currentTerm
  leads : effect.leads = true → Campaigning n ∧ effect.node.currentTerm = n.currentTerm ∧
    effect.node.state.leading = true
  campaigning : Campaigning effect.node → effect.node.currentTerm = n.currentTerm → Campaigning n
  threads : ∀ thread ∈ effect.node.waiting.drop n.waiting.length,
    threadTerm thread ≤ effect.node.currentTerm ∧
      ∀ request, thread = .requestVote request → asked request
  sent : ∀ request, .requestVote request ∈ effect.sent → request.serverId = n.serverId ∧
    answered (.electSelf request.term) ⟨request.lastLogIndex, request.lastLogTerm⟩
  saving : effect.node.saving = true →
    ∃ lastLogId, answered (.electSelf effect.node.currentTerm) lastLogId
  vote : effect.node.metaStorage = n.metaStorage ∨
    effect.node.metaStorage.votedfor.isEmpty = true ∨
    (∃ request lastLogId, answered (.requestVote request) lastLogId ∧
      ElectionNode.logIsOk request lastLogId ∧
      effect.node.metaStorage = ⟨request.term, request.serverId⟩) ∨
    n.saving = true ∧ effect.node.metaStorage = ⟨n.currentTerm, n.serverId⟩

theorem Turn.mono {asked : RequestVoteRequest → Prop} {answered answered' : Waiting → LogId → Prop}
    {n : ElectionNode} {effect : Effect} (h : Turn asked answered n effect)
    (hmore : ∀ thread lastLogId, answered thread lastLogId → answered' thread lastLogId) :
    Turn asked answered' n effect :=
  { h with
    sent := fun request hr => ⟨(h.sent request hr).1, hmore _ _ (h.sent request hr).2⟩
    saving := fun hsave => (h.saving hsave).imp fun _ ha => hmore _ _ ha
    vote := by
      rcases h.vote with hsame | hempty | ⟨request, lastLogId, hanswered, hcast⟩ | hself
      · exact .inl hsame
      · exact .inr (.inl hempty)
      · exact .inr (.inr (.inl ⟨request, lastLogId, hmore _ _ hanswered, hcast⟩))
      · exact .inr (.inr (.inr hself)) }

section Handlers

variable {conf : Configuration} {votes : Ledger} {id : PeerId} {n n' : ElectionNode}
  {asked : RequestVoteRequest → Prop} {answered : Waiting → LogId → Prop}

private theorem turn_of_moves {sent : List Message} {new : List Waiting}
    (hmoves : Moves n.toRole n'.toRole) (hwaiting : n'.waiting = n.waiting ++ new)
    (hnew : ∀ thread ∈ new, (threadTerm thread ≤ n'.currentTerm ∧
      ∀ request, thread = .requestVote request → asked request) ∧ ∀ t, thread ≠ .electSelf t)
    (hsaving : n'.saving = false) (hsent : ∀ request, .requestVote request ∉ sent) :
    Turn asked answered n ⟨n', sent, false⟩ where
  term := by
    rcases hmoves.term with ⟨hsame, -⟩ | ⟨hlt, -⟩
    · exact hsame.ge
    · exact hlt.le
  leading := fun hlead => by
    refine .inr ?_
    have hnot : n'.state ≠ .follower := by
      intro hstate
      rw [hstate] at hlead
      cases hlead
    rcases hmoves.term with ⟨hsame, -⟩ | ⟨-, -, -, -, hstate⟩
    · refine ⟨?_, hsame⟩
      rw [← hmoves.state.resolve_right hnot]
      exact hlead
    · exact absurd hstate hnot
  leads := fun hleads => Bool.noConfusion hleads
  campaigning := fun hcamp hterm => by
    rcases hcamp with hstate | hwait | hsave
    · refine .inl ?_
      rcases hmoves.state with hsame | hfollow
      · rw [← hsame]
        exact hstate
      · change n'.state = .candidate at hstate
        rw [hfollow] at hstate
        cases hstate
    · refine .inr (.inl ?_)
      change Waiting.electSelf n'.currentTerm ∈ n'.waiting at hwait
      rw [hwaiting] at hwait
      rcases List.mem_append.mp hwait with hold | hin
      · rw [← hterm]
        exact hold
      · exact absurd rfl ((hnew _ hin).2 _)
    · rw [show n'.saving = true from hsave] at hsaving
      cases hsaving
  threads := fun thread ht => by
    change thread ∈ n'.waiting.drop n.waiting.length at ht
    rw [hwaiting, List.drop_left] at ht
    exact (hnew thread ht).1
  sent := fun request hr => absurd hr (hsent request)
  saving := fun hsave => by
    rw [show n'.saving = true from hsave] at hsaving
    cases hsaving
  vote := by
    rcases hmoves.term with ⟨-, -, hmeta⟩ | ⟨-, -, -, hmeta, -⟩
    · exact .inl hmeta
    · refine .inr (.inl ?_)
      rw [hmeta]
      rfl

theorem Turn.quiet (hfree : n.saving = false) (hmoves : Moves n.toRole n'.toRole)
    (hwaiting : n'.waiting = n.waiting) (hsaving : n'.saving = n.saving) :
    Turn asked answered n n'.quiet :=
  turn_of_moves hmoves (by rw [hwaiting, List.append_nil]) (by simp) (hsaving.trans hfree) (by simp)

private theorem turn_prevote (hfree : n.saving = false) (hmoves : Moves n.toRole n'.toRole)
    (hwaiting : n'.waiting = n.waiting) (hsaving : n'.saving = n.saving) (lastLogId : LogId) :
    Turn asked answered n (n'.prevote conf lastLogId) := by
  unfold ElectionNode.prevote
  split
  · exact .quiet hfree hmoves hwaiting hsaving
  · refine turn_of_moves hmoves (by rw [hwaiting, List.append_nil]) (by simp)
      (hsaving.trans hfree) fun request hr => ?_
    obtain ⟨prevote, -, heq⟩ := List.mem_map.mp hr
    cases heq

private theorem turn_electSelf (hfree : n.saving = false) {effect : Effect}
    (heffect : n.electSelf conf = some effect) : Turn asked answered n effect := by
  unfold ElectionNode.electSelf at heffect
  split at heffect
  · cases heffect
    exact .quiet hfree (.refl _) rfl rfl
  · split at heffect
    · cases heffect
    · cases heffect
      refine
        { term := by show n.currentTerm ≤ n.currentTerm + 1; omega
          leading := fun hlead => by cases hlead
          leads := fun hleads => Bool.noConfusion hleads
          campaigning := fun _ hterm => ?_
          threads := fun thread ht => ?_
          sent := fun _ hr => (List.not_mem_nil hr).elim
          saving := fun hsave => absurd hsave (Bool.eq_false_iff.mp hfree)
          vote := .inl rfl }
      · change n.currentTerm + 1 = n.currentTerm at hterm
        omega
      · change thread ∈ (n.waiting ++ [Waiting.electSelf (n.currentTerm + 1)]).drop _ at ht
        rw [List.drop_left] at ht
        rw [List.mem_singleton.mp ht]
        exact ⟨le_rfl, fun _ heq => by cases heq⟩

private theorem turn_handleElectionTimeout (hfree : n.saving = false) (lastLogId : LogId) :
    Turn asked answered n (n.handleElectionTimeout conf lastLogId) := by
  unfold ElectionNode.handleElectionTimeout
  split
  · exact .quiet hfree (.refl _) rfl rfl
  · refine turn_prevote hfree ?_ ?_ ?_ lastLogId
    · exact ⟨rfl, .inl rfl, .inl ⟨rfl, rfl, rfl⟩⟩
    · rfl
    · rfl

private theorem turn_handleVoteTimeout {stepDownWhenVoteTimedout : Bool}
    (h : NodeInv conf votes id n)
    (hfree : n.saving = false) {lastLogId : LogId} {effect : Effect}
    (heffect : n.handleVoteTimeout conf stepDownWhenVoteTimedout lastLogId = some effect) :
    Turn asked answered n effect := by
  unfold ElectionNode.handleVoteTimeout at heffect
  split at heffect
  · cases heffect
    exact .quiet hfree (.refl _) rfl rfl
  · split at heffect
    · cases heffect
      refine turn_prevote hfree ?_ ?_ ?_ lastLogId
      · exact stepDown_moves h.termRange.1 h.termRange.2
      · rfl
      · rfl
    · exact turn_electSelf hfree heffect

private theorem turn_handlePrevote (h : NodeInv conf votes id n) (hfree : n.saving = false)
    (request : RequestVoteRequest) : Turn asked answered n (n.handlePrevote request) := by
  unfold ElectionNode.handlePrevote
  split
  · exact turn_of_moves (.refl _) (List.append_nil _).symm (by simp) hfree (by simp)
  · refine turn_of_moves (.refl _) rfl (fun thread ht => ?_) hfree (by simp)
    rw [List.mem_singleton.mp ht]
    exact ⟨⟨h.termRange.1, fun _ heq => by cases heq⟩, fun _ heq => by cases heq⟩

private theorem turn_handleRequestVote (h : NodeInv conf votes id n) (hfree : n.saving = false)
    {request : RequestVoteRequest} (hasked : asked request) (hfit : TermFits request.term) :
    Turn asked answered n (n.handleRequestVote request) := by
  have hthread : ∀ n' : ElectionNode, request.term ≤ n'.currentTerm →
      ∀ thread ∈ [Waiting.requestVote request], (threadTerm thread ≤ n'.currentTerm ∧
        ∀ other, thread = .requestVote other → asked other) ∧ ∀ t, thread ≠ .electSelf t := by
    intro n' hterm thread ht
    rw [List.mem_singleton.mp ht]
    exact ⟨⟨hterm, fun _ heq => by cases heq; exact hasked⟩, fun _ heq => by cases heq⟩
  unfold ElectionNode.handleRequestVote
  split
  · exact turn_of_moves (.refl _) (List.append_nil _).symm (by simp) hfree (by simp)
  · split
    · refine turn_of_moves (stepDown_moves h.termRange.1 hfit.2) rfl (hthread _ ?_) hfree (by simp)
      rename_i hlt
      show request.term ≤ (n.stepDown request.term).currentTerm
      unfold Role.stepDown
      dsimp only
      rw [if_pos hlt]
      exact (toInt32_of_lt hfit.1 hfit.2).ge
    · exact turn_of_moves (.refl _) rfl (hthread n (by omega)) hfree (by simp)

private theorem turn_handlePreVoteResponse (h : NodeInv conf votes id n) (hfree : n.saving = false)
    {peer : PeerId} {term : Int} {response : RequestVoteResponse} (hfit : TermFits response.term)
    {effect : Effect} (heffect : n.handlePreVoteResponse conf peer term response = some effect) :
    Turn asked answered n effect := by
  unfold ElectionNode.handlePreVoteResponse at heffect
  split at heffect
  · cases heffect
    exact .quiet hfree (.refl _) rfl rfl
  · split at heffect
    · cases heffect
      exact .quiet hfree (.refl _) rfl rfl
    · split at heffect
      · cases heffect
        exact .quiet hfree (stepDown_moves h.termRange.1 hfit.2) rfl rfl
      · split at heffect
        · dsimp only at heffect
          split at heffect
          · have hturn : Turn asked answered
                { n with prevoteCtx := (n.prevoteCtx.grant peer .new).1 } effect :=
              turn_electSelf (by exact hfree) heffect
            exact { hturn with }
          · cases heffect
            exact .quiet hfree (.refl _) rfl rfl
        · cases heffect
          exact .quiet hfree (.refl _) rfl rfl

private theorem turn_handleRequestVoteResponse (h : NodeInv conf votes id n)
    (hfree : n.saving = false)
    {peer : PeerId} {term : Int} {response : RequestVoteResponse} (hfit : TermFits response.term) :
    Turn asked answered n (n.handleRequestVoteResponse peer term response) := by
  unfold ElectionNode.handleRequestVoteResponse
  split
  · exact .quiet hfree (.refl _) rfl rfl
  · rename_i hstate
    split
    · exact .quiet hfree (.refl _) rfl rfl
    · split
      · exact .quiet hfree (stepDown_moves h.termRange.1 hfit.2) rfl rfl
      · split
        · dsimp only
          split
          · refine
              { term := le_rfl
                leading := fun _ => .inl rfl
                leads := fun _ => ⟨.inl (not_not.mp hstate), rfl, rfl⟩
                campaigning := fun _ _ => .inl (not_not.mp hstate)
                threads := fun thread ht => ?_
                sent := fun _ hr => (List.not_mem_nil hr).elim
                saving := fun hsave => absurd hsave (Bool.eq_false_iff.mp hfree)
                vote := .inl rfl }
            change thread ∈ n.waiting.drop n.waiting.length at ht
            simp at ht
          · exact .quiet hfree (.refl _) rfl rfl
        · exact .quiet hfree (.refl _) rfl rfl

private theorem turn_saveVote (hsaving : n.saving = true) : Turn asked answered n n.saveVote := by
  have hvoted : ∀ effect : Effect, effect.node.metaStorage = ⟨n.currentTerm, n.serverId⟩ →
      effect.node.currentTerm = n.currentTerm → effect.node.waiting = n.waiting →
      effect.node.saving = false → effect.sent = [] →
      (effect.node.state.leading = true → effect.leads = true ∨ n.state.leading = true) →
      (effect.leads = true → effect.node.state.leading = true) → Turn asked answered n effect := by
    intro effect hmeta hterm hwaiting hfree hsent hleading hleads
    refine
      { term := hterm.ge
        leading := fun hlead => (hleading hlead).imp_right fun hn => ⟨hn, hterm⟩
        leads := fun hl => ⟨.inr (.inr hsaving), hterm, hleads hl⟩
        campaigning := fun _ _ => .inr (.inr hsaving)
        threads := fun thread ht => ?_
        sent := fun _ hr => ?_
        saving := fun hsave => absurd hsave (Bool.eq_false_iff.mp hfree)
        vote := .inr (.inr (.inr ⟨hsaving, hmeta⟩)) }
    · rw [hwaiting, List.drop_length] at ht
      cases ht
    · rw [hsent] at hr
      cases hr
  unfold ElectionNode.saveVote
  dsimp only
  split
  · exact hvoted _ rfl rfl rfl rfl rfl (fun _ => .inl rfl) fun _ => rfl
  · exact hvoted _ rfl rfl rfl rfl rfl .inr fun hl => Bool.noConfusion hl

private theorem turn_receiveAppendEntries (h : NodeInv conf votes id n) (hfree : n.saving = false)
    {term : Int} {serverId : PeerId} (hfit : term < 2 ^ 31)
    (hmeta : (n.receiveAppendEntries term serverId).metaStorage.term < 2 ^ 31) :
    Turn asked answered n (n.receiveAppendEntries term serverId).quiet := by
  obtain ⟨r, hr, hmoves⟩ := receiveAppendEntries_moves h hfit hmeta
  rw [hr]
  exact .quiet hfree hmoves rfl rfl

private theorem turn_increaseTermTo (h : NodeInv conf votes id n) (hfree : n.saving = false)
    {newTerm : Int}
    (hfit : newTerm < 2 ^ 31) : Turn asked answered n (n.increaseTermTo newTerm).quiet := by
  unfold ElectionNode.increaseTermTo
  split
  · exact .quiet hfree (.refl _) rfl rfl
  · exact .quiet hfree (stepDown_moves h.termRange.1 hfit) rfl rfl

private theorem turn_handleStepdownTimeout (h : NodeInv conf votes id n)
    (hfree : n.saving = false) :
    Turn asked answered n n.handleStepdownTimeout.quiet := by
  unfold ElectionNode.handleStepdownTimeout
  split
  · exact .quiet hfree (stepDown_moves h.termRange.1 h.termRange.2) rfl rfl
  · exact .quiet hfree (.refl _) rfl rfl

private theorem turn_boot (h : NodeInv conf votes id n)
    (hdisk : n.metaStorage.term = n.currentTerm) :
    Turn asked answered n (ElectionNode.boot id n.metaStorage).quiet := by
  have hterm : toInt32 n.metaStorage.term = n.currentTerm := by
    rw [hdisk]
    exact toInt32_of_lt h.termRange.1 h.termRange.2
  refine
    { term := hterm.ge
      leading := fun hlead => by cases hlead
      leads := fun hl => Bool.noConfusion hl
      campaigning := fun hcamp _ => ?_
      threads := fun thread ht => ?_
      sent := fun _ hr => (List.not_mem_nil hr).elim
      saving := fun hsave => Bool.noConfusion hsave
      vote := .inl rfl }
  · rcases hcamp with hstate | hwait | hsave
    · cases hstate
    · cases hwait
    · cases hsave
  · change thread ∈ ([] : List Waiting).drop n.waiting.length at ht
    simp at ht

private theorem turn_of_resumed {effect : Effect} (hterm : effect.node.currentTerm = n.currentTerm)
    (hstate : effect.node.state = n.state ∨ effect.node.state = .follower) {position : Nat}
    (hwaiting : effect.node.waiting = n.waiting.eraseIdx position) (hleads : effect.leads = false)
    (hsent : ∀ request, .requestVote request ∈ effect.sent → request.serverId = n.serverId ∧
      answered (.electSelf request.term) ⟨request.lastLogIndex, request.lastLogTerm⟩)
    (hsaving : effect.node.saving = true → Campaigning n ∧
      ∃ lastLogId, answered (.electSelf n.currentTerm) lastLogId)
    (hvote : effect.node.metaStorage = n.metaStorage ∨
      ∃ request lastLogId, answered (.requestVote request) lastLogId ∧
        ElectionNode.logIsOk request lastLogId ∧
        effect.node.metaStorage = ⟨request.term, request.serverId⟩) :
    Turn asked answered n effect where
  term := hterm.ge
  leading := fun hlead => by
    refine .inr ⟨?_, hterm⟩
    rcases hstate with hsame | hfollow
    · rw [← hsame]
      exact hlead
    · rw [hfollow] at hlead
      cases hlead
  leads := fun hl => by
    rw [hleads] at hl
    cases hl
  campaigning := fun hcamp _ => by
    rcases hcamp with hcand | hwait | hsave
    · rcases hstate with hsame | hfollow
      · exact .inl (hsame.symm.trans hcand)
      · rw [hfollow] at hcand
        cases hcand
    · rw [hwaiting, hterm] at hwait
      exact .inr (.inl (List.mem_of_mem_eraseIdx hwait))
    · exact (hsaving hsave).1
  threads := fun thread ht => by
    have hshort : effect.node.waiting.length ≤ n.waiting.length := by
      rw [hwaiting]
      exact List.length_eraseIdx_le ..
    rw [List.drop_eq_nil_of_le hshort] at ht
    cases ht
  sent := hsent
  saving := fun hsave => by
    rw [hterm]
    exact (hsaving hsave).2
  vote := by
    rcases hvote with hsame | hcast
    · exact .inl hsame
    · exact .inr (.inr (.inl hcast))

private theorem turn_castVote (h : NodeInv conf votes id n) (hfree : n.saving = false)
    {request : RequestVoteRequest} {lastLogId : LogId} {position : Nat}
    (hanswered : answered (.requestVote request) lastLogId) :
    Turn asked answered n
      ({ n with waiting := n.waiting.eraseIdx position }.castVote request lastLogId) := by
  have hsaving : n.saving = true → Campaigning n ∧
      ∃ lastLogId, answered (.electSelf n.currentTerm) lastLogId :=
    fun hsave => absurd hsave (Bool.eq_false_iff.mp hfree)
  unfold ElectionNode.castVote
  split
  · exact turn_of_resumed rfl (.inl rfl) rfl rfl (by simp [ElectionNode.answerRequestVote]) hsaving
      (.inl rfl)
  · rename_i hterm
    split
    · rename_i hvote
      have hsame : n.stepDown request.term =
          { n.toRole with leaderId := .empty, state := .follower } := by
        rw [not_not.mp hterm, Role.stepDown]
        exact if_neg (lt_irrefl _)
      have hdisk : n.metaStorage = ⟨n.currentTerm, n.votedId⟩ := by
        refine h.disk.resolve_right fun hself => ?_
        have hempty : id.isEmpty = true := by
          rw [← hself.1]
          exact hvote.2
        simp [PeerId.isEmpty, hself.2.1] at hempty
      dsimp only
      rw [hsame]
      refine turn_of_resumed rfl (.inr rfl) rfl rfl (by simp [ElectionNode.answerRequestVote])
        hsaving (.inr ⟨request, lastLogId, hanswered, hvote.1, ?_⟩)
      show (⟨n.metaStorage.term, request.serverId⟩ : MetaStorage) = _
      rw [hdisk, not_not.mp hterm]
    · exact turn_of_resumed rfl (.inl rfl) rfl rfl (by simp [ElectionNode.answerRequestVote])
        hsaving (.inl rfl)

private theorem turn_sendVoteRequests (hfree : n.saving = false) {oldTerm : Int} {lastLogId : LogId}
    {position : Nat} (hthread : n.waiting[position]? = some (.electSelf oldTerm))
    (hanswered : answered (.electSelf oldTerm) lastLogId) :
    Turn asked answered n ({ n with waiting := n.waiting.eraseIdx position }.sendVoteRequests conf
      oldTerm lastLogId) := by
  unfold ElectionNode.sendVoteRequests
  split
  · exact turn_of_resumed rfl (.inl rfl) rfl rfl (fun _ hr => (List.not_mem_nil hr).elim)
      (fun hsave => absurd hsave (Bool.eq_false_iff.mp hfree)) (.inl rfl)
  · rename_i hterm
    have hcur : oldTerm = n.currentTerm := not_not.mp hterm
    refine turn_of_resumed rfl (.inl rfl) rfl rfl (fun request hr => ?_) (fun _ => ?_) (.inl rfl)
    · obtain ⟨sent, hsent, heq⟩ := List.mem_map.mp hr
      cases heq
      obtain ⟨peer, -, rfl⟩ := List.mem_map.mp hsent
      refine ⟨rfl, ?_⟩
      show answered (.electSelf n.currentTerm) lastLogId
      rw [← hcur]
      exact hanswered
    · rw [← hcur]
      exact ⟨.inr (.inl (hcur ▸ List.mem_of_getElem? hthread)), lastLogId, hanswered⟩

private theorem turn_resume (h : NodeInv conf votes id n) (hfree : n.saving = false)
    {position : Nat}
    {lastLogId : LogId}
    (hanswered : ∀ thread, n.waiting[position]? = some thread → answered thread lastLogId) :
    Turn asked answered n (Cluster.resume conf n position lastLogId) := by
  unfold Cluster.resume
  split
  · rename_i thread hthread
    cases thread with
    | prevote request =>
      exact turn_of_resumed rfl (.inl rfl) rfl rfl
        (by simp [Cluster.resumeWith, ElectionNode.answerPrevote])
        (fun hsave => absurd hsave (Bool.eq_false_iff.mp hfree)) (.inl rfl)
    | requestVote request =>
      exact turn_castVote h hfree (hanswered _ hthread)
    | electSelf oldTerm => exact turn_sendVoteRequests hfree hthread (hanswered _ hthread)
  · exact .quiet hfree (.refl _) rfl rfl

end Handlers

section Steps

variable {conf : Configuration} {stepDownWhenVoteTimedout : Bool} {votes : Ledger}
  {s s' : Cluster}

/-- The thread that an event resumes at the node, and the answer it has got. -/
def Resumes (s : Cluster) (event : Event) (id : PeerId) (thread : Waiting) (lastLogId : LogId) :
    Prop :=
  ∃ position, event = .resume id position lastLogId ∧
    (s.nodes id).waiting[position]? = some thread

/-- A crash of the node finds the current term on the disk. -/
def TermOnDisk (s : Cluster) : Event → Prop
  | .crash id => (s.nodes id).metaStorage.term = (s.nodes id).currentTerm
  | _ => True

/-- A step is the turn of one node, or nothing happens. -/
def OneTurn (s : Cluster) (event : Event) (s' : Cluster) : Prop :=
  s' = s ∨ ∃ id effect, s' = s.put id effect ∧
    Turn (fun request => .requestVote request ∈ s.network) (Resumes s event id) (s.nodes id) effect

private theorem oneTurn_act {event : Event} {id : PeerId} {handler : ElectionNode → Option Effect}
    (hact : s.act id handler = some s')
    (hturn : (s.nodes id).saving = false → ∀ effect, handler (s.nodes id) = some effect →
      Turn (fun request => .requestVote request ∈ s.network) (Resumes s event id) (s.nodes id)
        effect) : OneTurn s event s' := by
  unfold Cluster.act at hact
  split at hact
  · cases hact
    exact .inl rfl
  · rename_i hfree
    obtain ⟨effect, heffect, rfl⟩ := Option.map_eq_some_iff.mp hact
    exact .inr ⟨id, effect, rfl, hturn (Bool.eq_false_iff.mpr hfree) effect heffect⟩

private theorem oneTurn_deliver (h : Inv conf votes s) {event : Event} {message : Message}
    (hmessage : message ∈ s.network) (hdeliver : s.deliver conf message = some s') :
    OneTurn s event s' := by
  have hinv := h.network message hmessage
  unfold Cluster.deliver at hdeliver
  cases message with
  | prevote request =>
    refine oneTurn_act hdeliver fun hfree effect he => ?_
    cases he
    exact turn_handlePrevote (h.nodes _) hfree request
  | prevoteResponse receiver peer term response =>
    refine oneTurn_act hdeliver fun hfree effect he => ?_
    exact turn_handlePreVoteResponse (h.nodes _) hfree hinv.2 he
  | requestVote request =>
    refine oneTurn_act hdeliver fun hfree effect he => ?_
    cases he
    exact turn_handleRequestVote (h.nodes _) hfree hmessage hinv.2
  | requestVoteResponse receiver peer term response =>
    refine oneTurn_act hdeliver fun hfree effect he => ?_
    cases he
    exact turn_handleRequestVoteResponse (h.nodes _) hfree hinv.1

theorem oneTurn_step {event : Event} (h : Inv conf votes s) (hfits : TermsFit s event)
    (hdisk : TermOnDisk s event) (hstep : s.step conf stepDownWhenVoteTimedout event = some s') :
    OneTurn s event s' := by
  unfold Cluster.step at hstep
  cases event with
  | electionTimeout id lastLogId =>
    refine oneTurn_act hstep fun hfree effect he => ?_
    cases he
    exact turn_handleElectionTimeout hfree lastLogId
  | voteTimeout id lastLogId =>
    refine oneTurn_act hstep fun hfree effect he => ?_
    exact turn_handleVoteTimeout (h.nodes id) hfree he
  | receive position =>
    dsimp only at hstep
    split at hstep
    · rename_i message hmessage
      exact oneTurn_deliver h (List.mem_of_getElem? hmessage) hstep
    · cases hstep
      exact .inl rfl
  | resume id position lastLogId =>
    refine oneTurn_act hstep fun hfree effect he => ?_
    cases he
    exact turn_resume (h.nodes id) hfree fun thread ht => ⟨position, rfl, ht⟩
  | saveVote id =>
    dsimp only at hstep
    split at hstep
    · rename_i hsaving
      cases hstep
      exact .inr ⟨id, _, rfl, turn_saveVote hsaving⟩
    · cases hstep
      exact .inl rfl
  | appendEntries id term serverId =>
    refine oneTurn_act hstep fun hfree effect he => ?_
    cases he
    exact turn_receiveAppendEntries (h.nodes id) hfree hfits.1 hfits.2
  | increaseTermTo id newTerm =>
    refine oneTurn_act hstep fun hfree effect he => ?_
    cases he
    exact turn_increaseTermTo (h.nodes id) hfree hfits
  | stepdownTimeout id =>
    refine oneTurn_act hstep fun hfree effect he => ?_
    cases he
    exact turn_handleStepdownTimeout (h.nodes id) hfree
  | crash id =>
    cases hstep
    exact .inr ⟨id, _, rfl, turn_boot (h.nodes id) hdisk⟩

end Steps

end HitConsistency.Election.HandlerTurns
