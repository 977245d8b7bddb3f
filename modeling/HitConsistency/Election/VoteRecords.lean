/- GID: HitConsistency/Election/VoteRecords
   digest: Votes, the meta storage that is to hold them, and saves that fail. -/

import HitConsistency.Election.TermGrowth
import HitConsistency.Node.DurableMeta

set_option autoImplicit false
set_option relaxedAutoImplicit false

/-!
A vote is kept in three places: in the node, in the meta storage object, which is assigned
before it is saved, and in the file. No caller of the meta storage looks at the result of a
save. A restart begins with what the file holds.
-/

namespace HitConsistency.Election.VoteRecords

open HitConsistency.Base.GuardedRuns
open HitConsistency.Commit.BallotCount
open HitConsistency.Election.TermGrowth
  (Behind checkStepDown_leaderId checkStepDown_stepDown handle low_prevoteResponse
    low_requestVoteResponse pending pending_eraseIdx stepDown_higher stepDown_not_higher
    stepsDownTo)
open HitConsistency.Election.VoteProtocol
open HitConsistency.Election.VoteProtocol.ElectionNode
open HitConsistency.Group.Peers
open HitConsistency.Log.Entry
open HitConsistency.Node.RoleState

/-- A vote that was given, and what the file held then. -/
structure Grant where
  term : Int
  candidate : PeerId
  persisted : MetaStorage
  deriving DecidableEq

/-- `metaStorage` is the object in memory. -/
structure Voter extends ElectionNode where
  file : MetaStorage
  granted : List Grant
  /-- `get_term` and `get_votedfor` in front of each failed call and behind it. -/
  failed : List (MetaStorage × MetaStorage)

inductive Event
  | handle (event : TermGrowth.Event) (saveOk : Bool)
  | restart

/-- The pair that an event gives to the meta storage. -/
def saves (n : ElectionNode) (event : TermGrowth.Event) : Option MetaStorage :=
  if n.saving then
    match event with
    | .saveVote => some ⟨n.currentTerm, n.serverId⟩
    | _ => none
  else
    match event with
    | .resume position lastLogId =>
        match n.waiting[position]? with
        | some (.requestVote request) =>
            if request.term = n.currentTerm ∧ logIsOk request lastLogId ∧ n.votedId.isEmpty then
              some ⟨n.metaStorage.term, request.serverId⟩
            else none
        | _ => none
    | event =>
        (stepsDownTo n event).bind fun term =>
          if n.currentTerm < term then some ⟨term, .empty⟩ else none

/-- A handler that gets the mutex, or the end of `elect_self`. -/
def effectOf (conf : Configuration) (stepDownWhenVoteTimedout : Bool) (n : ElectionNode)
    (event : TermGrowth.Event) : Option Effect :=
  if n.saving then
    match event with
    | .saveVote => some n.saveVote
    | _ => some n.quiet
  else handle conf stepDownWhenVoteTimedout n event

def votes (sent : List Message) : List (Int × PeerId) :=
  sent.filterMap fun
    | .requestVoteResponse receiver _ _ response =>
        if response.granted then some (response.term, receiver) else none
    | _ => none

def ownVote (n : ElectionNode) : TermGrowth.Event → List (Int × PeerId)
  | .saveVote => if n.saving then [(n.currentTerm, n.serverId)] else []
  | _ => []

namespace Voter

def boot (serverId : PeerId) (file : MetaStorage) : Voter where
  toElectionNode := .boot serverId file
  file := file
  granted := []
  failed := []

/-- A save that fails leaves the file alone. -/
def record (v : Voter) (event : TermGrowth.Event) (saveOk : Bool) (effect : Effect) : Voter :=
  let saved := saves v.toElectionNode event
  let file := if saveOk then saved.getD v.file else v.file
  { toElectionNode := effect.node
    file := file
    granted := v.granted ++ (ownVote v.toElectionNode event ++ votes effect.sent).map
      fun vote => ⟨vote.1, vote.2, file⟩
    failed := v.failed ++
      if saved.isSome ∧ saveOk = false then [(v.metaStorage, effect.node.metaStorage)] else [] }

def step (conf : Configuration) (stepDownWhenVoteTimedout : Bool) (v : Voter) :
    Event → Option Voter
  | .handle event saveOk =>
      (effectOf conf stepDownWhenVoteTimedout v.toElectionNode event).map (v.record event saveOk)
  | .restart => some { boot v.serverId v.file with granted := v.granted, failed := v.failed }

end Voter

/-- Every vote was on disk when it was given, a failed call has changed nothing, and no term
has seen votes for two candidates. -/
structure Sound (v : Voter) : Prop where
  durable : ∀ grant ∈ v.granted, grant.persisted = ⟨grant.term, grant.candidate⟩
  unchanged : ∀ pair ∈ v.failed, pair.2 = pair.1
  once : ∀ grant ∈ v.granted, ∀ other ∈ v.granted, grant.term = other.term →
    grant.candidate = other.candidate

def VotesKept (conf : Configuration) (stepDownWhenVoteTimedout : Bool) (serverId : PeerId)
    (file : MetaStorage) (events : List Event) : Prop :=
  ∀ pre post v, events = pre ++ post →
    runEvents (Voter.step conf stepDownWhenVoteTimedout) (.boot serverId file) pre = some v →
      Sound v

/-- A candidate names itself, and it asks other nodes. -/
def Named (serverId : PeerId) (request : RequestVoteRequest) : Prop :=
  request.serverId ≠ .empty ∧ request.serverId ≠ serverId

/-- A higher term fits into 32 bits, and a vote request comes from another node. -/
def Proper (v : Voter) : Event → Prop
  | .handle event _ =>
      (∀ term ∈ stepsDownTo v.toElectionNode event, v.currentTerm < term → toInt32 term = term) ∧
        ∀ request, event = .requestVote request → Named v.serverId request
  | .restart => True

/-- No save fails. -/
def SaveOk (v : Voter) : Event → Prop
  | .handle event saveOk => (saves v.toElectionNode event).isSome → saveOk = true
  | .restart => True

structure Around (n n' : ElectionNode) (event : TermGrowth.Event) : Prop where
  serverId : n'.serverId = n.serverId
  requests : ∀ request, .requestVote request ∈ n'.waiting →
    .requestVote request ∈ n.waiting ∨ event = .requestVote request

/-- What a turn with the mutex does to term and vote, with the votes it sends. -/
inductive Turn (conf : Configuration) (flag : Bool) (n : ElectionNode) (event : TermGrowth.Event)
    (effect : Effect) : Prop
  | keeps (saved : saves n event = none) (term : effect.node.currentTerm = n.currentTerm)
      (voted : effect.node.votedId = n.votedId)
      (object : effect.node.metaStorage = n.metaStorage) (saving : effect.node.saving = n.saving)
      (waiting : (pending effect.node).Sublist (pending n))
      (waits : n.currentTerm ∈ pending n → n.currentTerm ∈ pending effect.node)
      (answered : ∀ vote ∈ votes effect.sent, vote = (n.currentTerm, n.votedId) ∧
        ∃ request, .requestVote request ∈ n.waiting ∧ request.serverId = n.votedId)
  | stepsDown (term : Int) (reached : stepsDownTo n event = some term)
      (higher : n.currentTerm < term) (saved : saves n event = some ⟨term, .empty⟩)
      (moved : effect.node.currentTerm = toInt32 term) (voted : effect.node.votedId = .empty)
      (object : effect.node.metaStorage = ⟨term, .empty⟩)
      (saving : effect.node.saving = false) (waiting : pending effect.node = pending n)
      (answered : votes effect.sent = [])
  | elects (saved : saves n event = none) (fits : n.currentTerm + 1 < 2 ^ 31)
      (term : effect.node.currentTerm = n.currentTerm + 1)
      (voted : effect.node.votedId = n.serverId)
      (object : effect.node.metaStorage = n.metaStorage) (saving : effect.node.saving = false)
      (waiting : pending effect.node = pending n ++ [n.currentTerm + 1])
      (answered : votes effect.sent = [])
  | startsSaving (saved : saves n event = none) (term : effect.node.currentTerm = n.currentTerm)
      (voted : effect.node.votedId = n.votedId)
      (object : effect.node.metaStorage = n.metaStorage) (saving : effect.node.saving = true)
      (waiting : ∃ front back, pending n = front ++ n.currentTerm :: back ∧
        pending effect.node = front ++ back)
      (answered : votes effect.sent = [])
  | casts (request : RequestVoteRequest) (asked : .requestVote request ∈ n.waiting)
      (fresh : n.votedId = .empty)
      (saved : saves n event = some ⟨n.metaStorage.term, request.serverId⟩)
      (term : effect.node.currentTerm = n.currentTerm)
      (voted : effect.node.votedId = request.serverId)
      (object : effect.node.metaStorage = ⟨n.metaStorage.term, request.serverId⟩)
      (saving : effect.node.saving = n.saving)
      (waiting : (pending effect.node).Sublist (pending n))
      (waits : n.currentTerm ∈ pending n → n.currentTerm ∈ pending effect.node)
      (answered : votes effect.sent = [(n.currentTerm, request.serverId)])

section Handlers

variable {conf : Configuration} {flag : Bool} {n n' : ElectionNode} {event : TermGrowth.Event}
  {effect : Effect}

@[simp] theorem votes_nil : votes [] = [] := rfl

@[simp] theorem votes_prevote (requests : List RequestVoteRequest) :
    votes (requests.map .prevote) = [] := by
  simp [votes, List.filterMap_map]

@[simp] theorem votes_requestVote (requests : List RequestVoteRequest) :
    votes (requests.map .requestVote) = [] := by
  simp [votes, List.filterMap_map]

private theorem saves_of_low (hsaving : n.saving = false)
    (hevent : ∀ position id, event ≠ .resume position id)
    (hlow : ∀ term ∈ stepsDownTo n event, ¬ n.currentTerm < term) : saves n event = none := by
  unfold saves
  rw [hsaving, if_neg Bool.false_ne_true]
  split
  · exact absurd rfl (hevent _ _)
  · cases hto : stepsDownTo n event with
    | none => rfl
    | some term => exact if_neg (hlow term hto)

private theorem saves_of_higher {term : Int} (hsaving : n.saving = false)
    (hto : stepsDownTo n event = some term) (hhigher : n.currentTerm < term) :
    saves n event = some ⟨term, .empty⟩ := by
  unfold saves
  rw [hsaving, if_neg Bool.false_ne_true]
  split
  · cases hto
  · rw [hto]
    exact if_pos hhigher

theorem Turn.of_eq (hsaved : saves n event = none)
    (hterm : effect.node.currentTerm = n.currentTerm) (hvoted : effect.node.votedId = n.votedId)
    (hobject : effect.node.metaStorage = n.metaStorage) (hsaving : effect.node.saving = n.saving)
    (hwaiting : pending effect.node = pending n) (hsent : votes effect.sent = []) :
    Turn conf flag n event effect := by
  refine .keeps hsaved hterm hvoted hobject hsaving ?_ ?_ ?_
  · rw [hwaiting]
  · exact fun h => hwaiting ▸ h
  · rw [hsent]
    exact fun _ h => by cases h

private theorem turn_stepDown (term : Int) (hsaving : n.saving = false)
    (hevent : ∀ position id, event ≠ .resume position id) (hto : stepsDownTo n event = some term)
    (hterm : effect.node.currentTerm = (n.stepDown term).currentTerm)
    (hvoted : effect.node.votedId = (n.stepDown term).votedId)
    (hobject : effect.node.metaStorage = (n.stepDown term).metaStorage)
    (hsame : effect.node.saving = n.saving) (hwaiting : pending effect.node = pending n)
    (hsent : votes effect.sent = []) : Turn conf flag n event effect := by
  by_cases hhigher : n.currentTerm < term
  · rw [stepDown_higher hhigher] at hterm hvoted hobject
    exact .stepsDown term hto hhigher (saves_of_higher hsaving hto hhigher) hterm hvoted hobject
      (hsame.trans hsaving) hwaiting hsent
  · rw [stepDown_not_higher hhigher] at hterm hvoted hobject
    refine .of_eq (saves_of_low hsaving hevent fun t ht => ?_) hterm hvoted hobject hsame hwaiting
      hsent
    rw [hto] at ht
    cases ht
    exact hhigher

private theorem electSelf_turn {m : ElectionNode} (hno : n.saving = false)
    (hsaved : saves n event = none) (h : m.electSelf conf = some effect)
    (hrole : m.toRole = n.toRole) (hsaving : m.saving = n.saving)
    (hwaiting : m.waiting = n.waiting) : Turn conf flag n event effect := by
  have hpending : pending m = pending n := by
    unfold pending
    rw [hwaiting]
  unfold ElectionNode.electSelf at h
  split_ifs at h with hcontains hoverflow
  · cases h
    exact .of_eq hsaved (congrArg Role.currentTerm hrole) (congrArg Role.votedId hrole)
      (congrArg Role.metaStorage hrole) hsaving hpending rfl
  · cases h
    rw [hrole] at hoverflow
    have hobject : m.metaStorage = n.metaStorage := congrArg Role.metaStorage hrole
    refine .elects hsaved (not_le.mp hoverflow) ?_ (congrArg Role.serverId hrole) hobject
      (hsaving.trans hno) ?_ rfl
    · show m.currentTerm + 1 = n.currentTerm + 1
      rw [hrole]
    · rw [← hpending, ← hrole]
      simp [pending, ElectionNode.wait, ElectionNode.quiet]

private theorem prevote_turn {lastLogId : LogId} (hsaved : saves n event = none)
    (hterm : n'.currentTerm = n.currentTerm) (hvoted : n'.votedId = n.votedId)
    (hobject : n'.metaStorage = n.metaStorage) (hsaving : n'.saving = n.saving)
    (hwaiting : pending n' = pending n) :
    Turn conf flag n event (n'.prevote conf lastLogId) := by
  unfold ElectionNode.prevote
  split_ifs
  · exact .of_eq hsaved hterm hvoted hobject hsaving hwaiting rfl
  · exact .of_eq hsaved hterm hvoted hobject hsaving hwaiting (votes_prevote _)

private theorem handleVoteTimeout_turn {lastLogId : LogId} (hsaving : n.saving = false)
    (h : n.handleVoteTimeout conf flag lastLogId = some effect) :
    Turn conf flag n (.voteTimeout lastLogId) effect := by
  have hsaved : saves n (.voteTimeout lastLogId) = none :=
    saves_of_low hsaving (fun _ _ h => by cases h) fun _ ht => by cases ht
  unfold ElectionNode.handleVoteTimeout at h
  split_ifs at h with hstate hflag
  · cases h
    exact .of_eq hsaved rfl rfl rfl rfl rfl rfl
  · cases h
    have hsame : n.stepDown n.currentTerm = _ := stepDown_not_higher (lt_irrefl _)
    rw [hsame]
    exact prevote_turn hsaved rfl rfl rfl rfl rfl
  · exact electSelf_turn hsaving hsaved h rfl rfl rfl

private theorem handlePreVoteResponse_turn {peer : PeerId} {term : Int}
    {response : RequestVoteResponse}
    (hsaving : n.saving = false)
    (h : n.handlePreVoteResponse conf peer term response = some effect) :
    Turn conf flag n (.prevoteResponse peer term response) effect := by
  have hlow : (∀ t ∈ stepsDownTo n (.prevoteResponse peer term response), ¬ n.currentTerm < t) →
      saves n (.prevoteResponse peer term response) = none :=
    saves_of_low hsaving fun _ _ h => by cases h
  unfold ElectionNode.handlePreVoteResponse at h
  split_ifs at h with hstate hterm hhigher hgranted
  · cases h
    exact .of_eq (hlow fun t ht => by simp [stepsDownTo, hstate] at ht) rfl rfl rfl rfl rfl rfl
  · cases h
    exact .of_eq (hlow fun t ht => by simp [stepsDownTo, hterm] at ht) rfl rfl rfl rfl rfl rfl
  · cases h
    refine turn_stepDown _ hsaving (fun _ _ h => by cases h) ?_ rfl rfl rfl rfl rfl rfl
    exact if_pos ⟨not_not.mp hstate, not_not.mp hterm⟩
  · have hsaved := hlow (low_prevoteResponse _ _ hhigher)
    dsimp only at h
    split_ifs at h with hquorum
    · exact electSelf_turn hsaving hsaved h rfl rfl rfl
    · cases h
      exact .of_eq hsaved rfl rfl rfl rfl rfl rfl
  · cases h
    exact .of_eq (hlow (low_prevoteResponse _ _ hhigher)) rfl rfl rfl rfl rfl rfl

private theorem handleRequestVoteResponse_turn {peer : PeerId} {term : Int}
    {response : RequestVoteResponse} (hsaving : n.saving = false) :
    Turn conf flag n (.requestVoteResponse peer term response)
      (n.handleRequestVoteResponse peer term response) := by
  have hlow : (∀ t ∈ stepsDownTo n (.requestVoteResponse peer term response),
      ¬ n.currentTerm < t) → saves n (.requestVoteResponse peer term response) = none :=
    saves_of_low hsaving fun _ _ h => by cases h
  unfold ElectionNode.handleRequestVoteResponse
  split_ifs with hstate hterm hhigher hgranted
  · exact .of_eq (hlow fun t ht => by simp [stepsDownTo, hstate] at ht) rfl rfl rfl rfl rfl rfl
  · exact .of_eq (hlow fun t ht => by simp [stepsDownTo, hterm] at ht) rfl rfl rfl rfl rfl rfl
  · refine turn_stepDown response.term hsaving (fun _ _ h => by cases h) ?_ rfl rfl rfl rfl rfl rfl
    exact if_pos ⟨not_not.mp hstate, not_not.mp hterm⟩
  · have hsaved := hlow (low_requestVoteResponse hhigher)
    dsimp only
    split_ifs
    · exact .of_eq hsaved rfl rfl rfl rfl rfl rfl
    · exact .of_eq hsaved rfl rfl rfl rfl rfl rfl
  · exact .of_eq (hlow (low_requestVoteResponse hhigher)) rfl rfl rfl rfl rfl rfl

private theorem votes_answerRequestVote_of_ne {m : ElectionNode} {request : RequestVoteRequest}
    (h : request.term ≠ m.currentTerm) : votes (m.answerRequestVote request).sent = [] := by
  simp [votes, answerRequestVote, h]

private theorem handleRequestVote_turn {request : RequestVoteRequest} (hsaving : n.saving = false) :
    Turn conf flag n (.requestVote request) (n.handleRequestVote request) := by
  have hwaits : ∀ m : ElectionNode, pending (m.wait (.requestVote request)).node = pending m := by
    intro m
    simp [pending, ElectionNode.wait, ElectionNode.quiet]
  have hlow : ¬ n.currentTerm < request.term → saves n (.requestVote request) = none := by
    intro hlow
    refine saves_of_low hsaving (fun _ _ h => by cases h) fun t ht => ?_
    cases ht
    exact hlow
  unfold ElectionNode.handleRequestVote
  split_ifs with hlower hhigher
  · exact .of_eq (hlow (not_lt.mpr hlower.le)) rfl rfl rfl rfl rfl
      (votes_answerRequestVote_of_ne hlower.ne)
  · exact turn_stepDown _ hsaving (fun _ _ h => by cases h) rfl rfl rfl rfl rfl (hwaits _) rfl
  · exact .of_eq (hlow hhigher) rfl rfl rfl rfl (hwaits n) rfl

private theorem receiveAppendEntries_turn {term : Int} {serverId : PeerId}
    (hsaving : n.saving = false) :
    Turn conf flag n (.appendEntries term serverId)
      (n.receiveAppendEntries term serverId).quiet := by
  obtain ⟨hterm, hvoted, hobject⟩ := checkStepDown_stepDown n.toRole term serverId
  have hevent : ∀ position id, TermGrowth.Event.appendEntries term serverId ≠
      .resume position id := fun _ _ h => by cases h
  unfold ElectionNode.receiveAppendEntries
  split_ifs with hlower
  · refine .of_eq (saves_of_low hsaving hevent fun t ht => ?_) rfl rfl rfl rfl rfl rfl
    simp [stepsDownTo, hlower] at ht
  · by_cases hconflict : serverId ≠ (n.checkStepDown term serverId).leaderId
    · have hlow : ¬ n.currentTerm < term := fun hhigher =>
        hconflict (checkStepDown_leaderId hhigher serverId).symm
      rw [stepDown_not_higher hlow] at hterm
      have hcurrent : n.currentTerm < term + 1 := Int.lt_add_one_of_le (not_lt.mp hlower)
      have hnext : (n.checkStepDown term serverId).currentTerm < term + 1 := by
        rw [hterm]
        exact hcurrent
      have hto : stepsDownTo n (.appendEntries term serverId) = some (term + 1) := by
        simp [stepsDownTo, hlower, hconflict]
      dsimp only
      rw [if_pos hconflict, stepDown_higher hnext]
      exact .stepsDown (term + 1) hto hcurrent (saves_of_higher hsaving hto hcurrent) rfl rfl rfl
        hsaving rfl rfl
    · have hto : stepsDownTo n (.appendEntries term serverId) = some term := by
        simp [stepsDownTo, hlower, hconflict]
      dsimp only
      rw [if_neg hconflict]
      exact turn_stepDown _ hsaving hevent hto hterm hvoted hobject rfl rfl rfl

private theorem pending_eq_of_getElem? {position : Nat} {thread : Waiting}
    (hthread : n.waiting[position]? = some thread) :
    ∃ front back, n.waiting = front ++ thread :: back ∧
      n.waiting.eraseIdx position = front ++ back := by
  obtain ⟨hlt, hget⟩ := List.getElem?_eq_some_iff.mp hthread
  refine ⟨n.waiting.take position, n.waiting.drop (position + 1), ?_, ?_⟩
  · rw [← hget, List.getElem_cons_drop hlt, List.take_append_drop]
  · exact List.eraseIdx_eq_take_drop_succ ..

private theorem castVote_turn {position : Nat} {request : RequestVoteRequest} {lastLogId : LogId}
    (hsaving : n.saving = false) (hthread : n.waiting[position]? = some (.requestVote request)) :
    Turn conf flag n (.resume position lastLogId)
      (ElectionNode.castVote { n with waiting := n.waiting.eraseIdx position } request
        lastLogId) := by
  have hasked := List.mem_of_getElem? hthread
  have hsub : (pending { n with waiting := n.waiting.eraseIdx position }).Sublist (pending n) :=
    (n.waiting.eraseIdx_sublist position).filterMap _
  have hwaits : n.currentTerm ∈ pending n →
      n.currentTerm ∈ pending { n with waiting := n.waiting.eraseIdx position } :=
    pending_eraseIdx hthread (by simp)
  have hsaves : saves n (.resume position lastLogId) =
      if request.term = n.currentTerm ∧ logIsOk request lastLogId ∧ n.votedId.isEmpty then
        some ⟨n.metaStorage.term, request.serverId⟩
      else none := by
    simp only [saves, hsaving, Bool.false_eq_true, if_false, hthread]
  unfold ElectionNode.castVote
  split_ifs with hterm hok
  · refine .keeps ?_ rfl rfl rfl rfl hsub hwaits ?_
    · rw [hsaves, if_neg fun h => hterm h.1]
    · rw [votes_answerRequestVote_of_ne hterm]
      exact fun _ h => by cases h
  · have hsame : n.stepDown request.term = _ :=
      stepDown_not_higher (not_not.mp hterm ▸ lt_irrefl _)
    have hfresh := (PeerId.isEmpty_iff _).mp hok.2
    have hsaved := hsaves.trans (if_pos ⟨not_not.mp hterm, hok⟩)
    refine .casts request hasked hfresh hsaved ?_ rfl ?_ rfl hsub hwaits ?_
    · simp only [answerRequestVote, hsame]
    · simp only [answerRequestVote, hsame]
    · have hcurrent : (n.stepDown n.currentTerm).currentTerm = n.currentTerm := by
        rw [stepDown_not_higher (lt_irrefl _)]
      simp [votes, answerRequestVote, not_not.mp hterm, hcurrent]
  · refine .keeps ?_ rfl rfl rfl rfl hsub hwaits fun vote hvote => ?_
    · rw [hsaves, if_neg fun h => hok h.2]
    · by_cases hvoted : n.votedId = request.serverId
      · refine ⟨?_, request, hasked, hvoted.symm⟩
        simpa [votes, answerRequestVote, not_not.mp hterm, hvoted] using hvote
      · simp [votes, answerRequestVote, hvoted] at hvote

private theorem resume_turn {position : Nat} {lastLogId : LogId} (hsaving : n.saving = false) :
    Turn conf flag n (.resume position lastLogId) (Cluster.resume conf n position lastLogId) := by
  unfold Cluster.resume
  cases hthread : n.waiting[position]? with
  | none =>
    refine .of_eq ?_ rfl rfl rfl rfl rfl rfl
    simp [saves, hsaving, hthread]
  | some thread =>
    have hsub : (pending { n with waiting := n.waiting.eraseIdx position }).Sublist (pending n) :=
      (n.waiting.eraseIdx_sublist position).filterMap _
    cases thread with
    | prevote request =>
      refine .keeps (by simp [saves, hsaving, hthread]) rfl rfl rfl rfl hsub ?_ fun _ h => ?_
      · exact pending_eraseIdx hthread (by simp)
      · simp [Cluster.resumeWith, answerPrevote, votes] at h
    | requestVote request => exact castVote_turn hsaving hthread
    | electSelf oldTerm =>
      have hsaved : saves n (.resume position lastLogId) = none := by
        simp [saves, hsaving, hthread]
      show Turn conf flag n _ (ElectionNode.sendVoteRequests conf _ oldTerm lastLogId)
      unfold ElectionNode.sendVoteRequests
      split_ifs with hterm
      · refine .keeps hsaved rfl rfl rfl rfl hsub ?_ fun _ h => by cases h
        refine pending_eraseIdx hthread ?_
        rintro heq
        cases heq
        exact hterm rfl
      · obtain ⟨front, back, hsplit, herase⟩ := pending_eq_of_getElem? hthread
        refine .startsSaving hsaved rfl rfl rfl rfl ?_ (votes_requestVote _)
        refine ⟨pending { n with waiting := front }, pending { n with waiting := back }, ?_, ?_⟩
        · simp [pending, hsplit, not_not.mp hterm]
        · simp [pending, herase]

private theorem handle_turn (hsaving : n.saving = false)
    (h : handle conf flag n event = some effect) :
    Turn conf flag n event effect := by
  cases event with
  | electionTimeout lastLogId =>
    cases h
    have hsaved : saves n (.electionTimeout lastLogId) = none :=
      saves_of_low hsaving (fun _ _ h => by cases h) fun _ ht => by cases ht
    unfold ElectionNode.handleElectionTimeout
    split_ifs
    · exact .of_eq hsaved rfl rfl rfl rfl rfl rfl
    · exact prevote_turn hsaved rfl rfl rfl rfl rfl
  | voteTimeout lastLogId => exact handleVoteTimeout_turn hsaving h
  | prevote request =>
    cases h
    have hsaved : saves n (.prevote request) = none :=
      saves_of_low hsaving (fun _ _ h => by cases h) fun _ ht => by cases ht
    unfold ElectionNode.handlePrevote
    split_ifs
    · exact .of_eq hsaved rfl rfl rfl rfl rfl rfl
    · refine .of_eq hsaved rfl rfl rfl rfl ?_ rfl
      simp [pending, ElectionNode.wait, ElectionNode.quiet]
  | prevoteResponse peer term response => exact handlePreVoteResponse_turn hsaving h
  | requestVote request =>
    cases h
    exact handleRequestVote_turn hsaving
  | requestVoteResponse peer term response =>
    cases h
    exact handleRequestVoteResponse_turn hsaving
  | appendEntries term serverId =>
    cases h
    exact receiveAppendEntries_turn hsaving
  | increaseTermTo newTerm =>
    cases h
    unfold ElectionNode.increaseTermTo
    split_ifs with hlow
    · refine .of_eq (saves_of_low hsaving (fun _ _ h => by cases h) fun t ht => ?_) rfl rfl rfl rfl
        rfl rfl
      cases ht
      exact not_lt.mpr hlow
    · exact turn_stepDown _ hsaving (fun _ _ h => by cases h) rfl rfl rfl rfl rfl rfl rfl
  | stepdownTimeout =>
    cases h
    have hsaved : saves n .stepdownTimeout = none :=
      saves_of_low hsaving (fun _ _ h => by cases h) fun _ ht => by cases ht
    unfold ElectionNode.handleStepdownTimeout
    have hsame : n.stepDown n.currentTerm = _ := stepDown_not_higher (lt_irrefl _)
    split_ifs
    · rw [hsame]
      exact .of_eq hsaved rfl rfl rfl rfl rfl rfl
    · exact .of_eq hsaved rfl rfl rfl rfl rfl rfl
  | resume position lastLogId =>
    cases h
    exact resume_turn hsaving
  | saveVote =>
    cases h
    refine .of_eq (saves_of_low hsaving (fun _ _ h => by cases h) fun _ ht => by cases ht) rfl rfl
      rfl rfl rfl rfl

private theorem stepDown_serverId (r : Role) (term : Int) :
    (r.stepDown term).serverId = r.serverId := by
  unfold Role.stepDown
  dsimp only
  split_ifs <;> rfl

private theorem checkStepDown_serverId (r : Role) (term : Int) (serverId : PeerId) :
    (r.checkStepDown term serverId).serverId = r.serverId := by
  unfold Role.checkStepDown
  dsimp only
  split_ifs <;> first | rfl | exact stepDown_serverId r term

private theorem Around.of_waiting (hserver : n'.serverId = n.serverId)
    (hwaiting : n'.waiting = n.waiting) :
    Around n n' event :=
  ⟨hserver, fun _ h => .inl (hwaiting ▸ h)⟩

theorem Around.wait {m : ElectionNode} {thread : Waiting} (hserver : m.serverId = n.serverId)
    (hwaiting : m.waiting = n.waiting)
    (hthread : ∀ request, thread = .requestVote request → event = .requestVote request) :
    Around n (m.wait thread).node event := by
  refine ⟨hserver, fun request h => ?_⟩
  rcases List.mem_append.mp h with h | h
  · exact .inl (hwaiting ▸ h)
  · exact .inr (hthread request (List.mem_singleton.mp h).symm)

private theorem electSelf_around {m : ElectionNode} (h : m.electSelf conf = some effect)
    (hserver : m.serverId = n.serverId) (hwaiting : m.waiting = n.waiting) :
    Around n effect.node event := by
  unfold ElectionNode.electSelf at h
  split_ifs at h
  · cases h
    exact .of_waiting hserver hwaiting
  · cases h
    exact .wait hserver hwaiting fun _ h => by cases h

private theorem prevote_around {lastLogId : LogId} (hserver : n'.serverId = n.serverId)
    (hwaiting : n'.waiting = n.waiting) : Around n (n'.prevote conf lastLogId).node event := by
  unfold ElectionNode.prevote
  split_ifs <;> exact .of_waiting hserver hwaiting

private theorem resume_around {position : Nat} {lastLogId : LogId} :
    Around n (Cluster.resume conf n position lastLogId).node event := by
  have hsub : ∀ m : ElectionNode, m.serverId = n.serverId →
      m.waiting = n.waiting.eraseIdx position → Around n m event := fun m hserver hwaiting =>
    ⟨hserver, fun _ h => .inl (List.mem_of_mem_eraseIdx (hwaiting ▸ h))⟩
  unfold Cluster.resume
  cases hthread : n.waiting[position]? with
  | none => exact .of_waiting rfl rfl
  | some thread =>
    cases thread with
    | prevote request => exact hsub _ rfl rfl
    | requestVote request =>
      show Around n (ElectionNode.castVote _ request lastLogId).node event
      unfold ElectionNode.castVote
      split_ifs
      · exact hsub _ rfl rfl
      · exact hsub _ (stepDown_serverId n.toRole _) rfl
      · exact hsub _ rfl rfl
    | electSelf oldTerm =>
      show Around n (ElectionNode.sendVoteRequests conf _ oldTerm lastLogId).node event
      unfold ElectionNode.sendVoteRequests
      split_ifs <;> exact hsub _ rfl rfl

private theorem handle_around (h : handle conf flag n event = some effect) :
    Around n effect.node event := by
  cases event with
  | electionTimeout lastLogId =>
    cases h
    unfold ElectionNode.handleElectionTimeout
    split_ifs
    · exact .of_waiting rfl rfl
    · exact prevote_around rfl rfl
  | voteTimeout lastLogId =>
    change n.handleVoteTimeout conf flag lastLogId = some effect at h
    unfold ElectionNode.handleVoteTimeout at h
    split_ifs at h
    · cases h
      exact .of_waiting rfl rfl
    · cases h
      exact prevote_around (stepDown_serverId n.toRole _) rfl
    · exact electSelf_around h rfl rfl
  | prevote request =>
    cases h
    unfold ElectionNode.handlePrevote
    split_ifs
    · exact .of_waiting rfl rfl
    · exact .wait rfl rfl fun _ h => by cases h
  | prevoteResponse peer term response =>
    change n.handlePreVoteResponse conf peer term response = some effect at h
    unfold ElectionNode.handlePreVoteResponse at h
    dsimp only at h
    split_ifs at h
    · cases h
      exact .of_waiting rfl rfl
    · cases h
      exact .of_waiting rfl rfl
    · cases h
      exact .of_waiting (stepDown_serverId n.toRole _) rfl
    · exact electSelf_around h rfl rfl
    · cases h
      exact .of_waiting rfl rfl
    · cases h
      exact .of_waiting rfl rfl
  | requestVote request =>
    cases h
    have hthread : ∀ other, Waiting.requestVote request = .requestVote other →
        TermGrowth.Event.requestVote request = .requestVote other := by
      intro other heq
      cases heq
      rfl
    unfold ElectionNode.handleRequestVote
    split_ifs
    · exact .of_waiting rfl rfl
    · exact .wait (stepDown_serverId n.toRole _) rfl hthread
    · exact .wait rfl rfl hthread
  | requestVoteResponse peer term response =>
    cases h
    unfold ElectionNode.handleRequestVoteResponse
    dsimp only
    split_ifs
    all_goals first
      | exact .of_waiting rfl rfl
      | exact .of_waiting (stepDown_serverId n.toRole _) rfl
  | appendEntries term serverId =>
    cases h
    have hserver := checkStepDown_serverId n.toRole term serverId
    unfold ElectionNode.receiveAppendEntries
    split_ifs with hlower
    · exact .of_waiting rfl rfl
    · refine .of_waiting ?_ rfl
      dsimp only [ElectionNode.quiet]
      split_ifs
      · exact (stepDown_serverId _ _).trans hserver
      · exact hserver
  | increaseTermTo newTerm =>
    cases h
    unfold ElectionNode.increaseTermTo
    split_ifs
    · exact .of_waiting rfl rfl
    · exact .of_waiting (stepDown_serverId n.toRole _) rfl
  | stepdownTimeout =>
    cases h
    unfold ElectionNode.handleStepdownTimeout
    split_ifs
    · exact .of_waiting (stepDown_serverId n.toRole _) rfl
    · exact .of_waiting rfl rfl
  | resume position lastLogId =>
    cases h
    exact resume_around
  | saveVote =>
    cases h
    exact .of_waiting rfl rfl

end Handlers

section Runs

variable {conf : Configuration} {flag : Bool} {v v' : Voter}

private theorem fits_iff {term : Int} : toInt32 term = term ↔ -2 ^ 31 ≤ term ∧ term < 2 ^ 31 := by
  constructor
  · intro h
    have hlow : -((2 : Int) ^ 32 / 2) ≤ toInt32 term := Int.le_bmod (by decide)
    have hhigh : toInt32 term < ((2 : Int) ^ 32 + 1) / 2 := Int.bmod_lt (by decide)
    omega
  · rintro ⟨hlow, hhigh⟩
    exact Int.bmod_eq_of_le (by omega) (by omega)

private theorem step_eq_effectOf (n : ElectionNode) (event : TermGrowth.Event) :
    TermGrowth.step conf flag n event = (effectOf conf flag n event).map Effect.node := by
  unfold TermGrowth.step effectOf
  split_ifs
  · cases event <;> rfl
  · rfl

structure Saved (v : Voter) : Prop where
  saving : v.saving = false
  waiting : v.currentTerm ∉ pending v.toElectionNode
  file : v.file = ⟨v.currentTerm, v.votedId⟩

/-- `elect_self` is under way; it has yet to save the vote of the node for itself. -/
structure Unsaved (v : Voter) : Prop where
  saving : v.saving = true ↔ v.currentTerm ∉ pending v.toElectionNode
  file : v.file.term < v.currentTerm
  voted : v.votedId = v.serverId

/-- What is true of all votes once the file holds a pair. -/
def Given (granted : List Grant) (file : MetaStorage) : Prop :=
  ∀ grant ∈ granted, grant.candidate ≠ .empty ∧ grant.term ≤ file.term ∧
    (grant.term = file.term → grant.candidate = file.votedfor)

structure Kept (v : Voter) : Prop where
  named : v.serverId ≠ .empty
  object : v.metaStorage = v.file
  fits : toInt32 v.currentTerm = v.currentTerm
  fileFits : toInt32 v.file.term = v.file.term
  behind : Behind v.toElectionNode
  ordered : (pending v.toElectionNode).Pairwise (· < ·)
  requests : ∀ request, .requestVote request ∈ v.waiting → Named v.serverId request
  vote : Saved v ∨ Unsaved v
  given : Given v.granted v.file
  sound : Sound v

namespace Kept

theorem boot {serverId : PeerId} {file : MetaStorage} {granted : List Grant}
    {failed : List (MetaStorage × MetaStorage)} (hid : serverId ≠ .empty)
    (hfile : toInt32 file.term = file.term) (hgiven : Given granted file)
    (hsound : Sound ⟨.boot serverId file, file, granted, failed⟩) :
    Kept ⟨.boot serverId file, file, granted, failed⟩ where
  named := hid
  object := rfl
  fits := congrArg toInt32 hfile
  fileFits := hfile
  behind := fun _ h => by cases h
  ordered := .nil
  requests := fun _ h => by cases h
  vote := by
    refine .inl ⟨rfl, fun h => (by cases h), ?_⟩
    show file = ⟨toInt32 file.term, file.votedfor⟩
    rw [hfile]
  given := hgiven
  sound := hsound

theorem start {serverId : PeerId} {file : MetaStorage} (hid : serverId ≠ .empty)
    (hfile : toInt32 file.term = file.term) : Kept (.boot serverId file) :=
  boot hid hfile (fun _ h => by cases h)
    ⟨fun _ h => (by cases h), fun _ h => (by cases h), fun _ h => by cases h⟩

theorem restart (h : Kept v) :
    Kept { Voter.boot v.serverId v.file with granted := v.granted, failed := v.failed } :=
  boot h.named h.fileFits h.given ⟨h.sound.durable, h.sound.unchanged, h.sound.once⟩

private theorem file_le (h : Kept v) : v.file.term ≤ v.currentTerm := by
  rcases h.vote with hsaved | hunsaved
  · rw [hsaved.file]
  · exact hunsaved.file.le

private theorem given_later (h : Kept v) {pair : MetaStorage} (hlater : v.file.term < pair.term) :
    Given v.granted pair := by
  intro grant hgrant
  obtain ⟨hne, hle, -⟩ := h.given grant hgrant
  have hlt := hle.trans_lt hlater
  exact ⟨hne, hlt.le, fun heq => absurd heq hlt.ne⟩

theorem fresh (h : Kept v) (hfresh : v.votedId = .empty) :
    v.file = ⟨v.currentTerm, .empty⟩ ∧ ∀ grant ∈ v.granted, grant.term < v.file.term := by
  rcases h.vote with hsaved | hunsaved
  · have hfile : v.file = ⟨v.currentTerm, .empty⟩ := hfresh ▸ hsaved.file
    refine ⟨hfile, fun grant hgrant => ?_⟩
    obtain ⟨hne, hle, heq⟩ := h.given grant hgrant
    refine lt_of_le_of_ne hle fun hterm => hne ?_
    rw [heq hterm, hfile]
  · exact absurd (hunsaved.voted.symm.trans hfresh) h.named

end Kept

theorem sound_append {added : List Grant} {file : MetaStorage}
    (hsound : Sound v) (hgranted : v'.granted = v.granted ++ added) (hfailed : v'.failed = v.failed)
    (hgiven : Given v.granted file)
    (hadded : ∀ grant ∈ added, grant = ⟨file.term, file.votedfor, file⟩ ∧ file.votedfor ≠ .empty) :
    Given v'.granted file ∧ Sound v' := by
  have hnew : Given added file := by
    intro grant hgrant
    obtain ⟨rfl, hne⟩ := hadded grant hgrant
    exact ⟨hne, le_refl _, fun _ => rfl⟩
  have hall : Given v'.granted file := by
    intro grant hgrant
    rw [hgranted] at hgrant
    exact (List.mem_append.mp hgrant).elim (hgiven grant) (hnew grant)
  refine ⟨hall, fun grant hgrant => ?_, hfailed ▸ hsound.unchanged, ?_⟩
  · rw [hgranted] at hgrant
    rcases List.mem_append.mp hgrant with hold | hlast
    · exact hsound.durable grant hold
    · rw [(hadded grant hlast).1]
  · intro grant hgrant other hother hterm
    have hcase : ∀ grant ∈ v'.granted, grant ∈ v.granted ∨ grant.term = file.term := by
      intro grant hgrant
      rw [hgranted] at hgrant
      refine (List.mem_append.mp hgrant).imp_right fun hlast => ?_
      rw [(hadded grant hlast).1]
    rcases hcase grant hgrant with hold | hnew
    · rcases hcase other hother with hold' | hnew'
      · exact hsound.once grant hold other hold' hterm
      · rw [(hall grant hgrant).2.2 (hterm.trans hnew'), (hall other hother).2.2 hnew']
    · rw [(hall grant hgrant).2.2 hnew, (hall other hother).2.2 (hterm.symm.trans hnew)]

section Turns

variable {event : TermGrowth.Event} {saveOk : Bool} {effect : Effect}

private theorem record_file (hok : SaveOk v (.handle event saveOk)) :
    (v.record event saveOk effect).file = (saves v.toElectionNode event).getD v.file := by
  simp only [Voter.record]
  split_ifs with hsave
  · rfl
  · cases hsaves : saves v.toElectionNode event with
    | none => rfl
    | some pair => exact absurd (hok (by simp [hsaves])) hsave

private theorem record_failed (hok : SaveOk v (.handle event saveOk)) :
    (v.record event saveOk effect).failed = v.failed := by
  simp only [Voter.record]
  rw [if_neg, List.append_nil]
  rintro ⟨hsome, hno⟩
  rw [hok hsome] at hno
  cases hno

private theorem record_sound (effect : Effect) (h : Kept v) (hok : SaveOk v (.handle event saveOk))
    {file : MetaStorage} (hfile : (saves v.toElectionNode event).getD v.file = file)
    (hgiven : Given v.granted file)
    (hvotes : ∀ vote ∈ ownVote v.toElectionNode event ++ votes effect.sent,
      vote = (file.term, file.votedfor) ∧ file.votedfor ≠ .empty) :
    (v.record event saveOk effect).file = file ∧
      Given (v.record event saveOk effect).granted file ∧ Sound (v.record event saveOk effect) := by
  have hrecord : (v.record event saveOk effect).file = file := (record_file hok).trans hfile
  have hgranted : (v.record event saveOk effect).granted = v.granted ++
      (ownVote v.toElectionNode event ++ votes effect.sent).map
        fun vote => ⟨vote.1, vote.2, (v.record event saveOk effect).file⟩ := rfl
  rw [hrecord] at hgranted
  refine ⟨hrecord, sound_append h.sound hgranted (record_failed hok) hgiven fun grant hgrant => ?_⟩
  obtain ⟨vote, hvote, rfl⟩ := List.mem_map.mp hgrant
  obtain ⟨rfl, hne⟩ := hvotes vote hvote
  exact ⟨rfl, hne⟩

private theorem Kept.requests_around (h : Kept v)
    (haround : Around v.toElectionNode effect.node event)
    (hnamed : ∀ request, event = .requestVote request → Named v.serverId request) :
    ∀ request, .requestVote request ∈ effect.node.waiting → Named effect.node.serverId request := by
  intro request hrequest
  rw [haround.serverId]
  exact (haround.requests request hrequest).elim (h.requests request) (hnamed request)

private theorem silent {n : ElectionNode} {file : MetaStorage} (hown : ownVote n event = [])
    (hsent : votes effect.sent = []) :
    ∀ vote ∈ ownVote n event ++ votes effect.sent,
      vote = (file.term, file.votedfor) ∧ file.votedfor ≠ .empty := by
  intro vote hvote
  rw [hown, hsent] at hvote
  cases hvote

private theorem Kept.turn_keeps (h : Kept v)
    (hok : SaveOk v (.handle event saveOk)) (hown : ownVote v.toElectionNode event = [])
    (haround : Around v.toElectionNode effect.node event)
    (hrequests : ∀ request, .requestVote request ∈ effect.node.waiting →
      Named effect.node.serverId request)
    (hsaved : saves v.toElectionNode event = none)
    (hterm : effect.node.currentTerm = v.currentTerm) (hvoted : effect.node.votedId = v.votedId)
    (hobject : effect.node.metaStorage = v.metaStorage)
    (hsaving : effect.node.saving = v.saving)
    (hwaiting : (pending effect.node).Sublist (pending v.toElectionNode))
    (hwaits : v.currentTerm ∈ pending v.toElectionNode → v.currentTerm ∈ pending effect.node)
    (hanswered : ∀ vote ∈ votes effect.sent, vote = (v.currentTerm, v.votedId) ∧
      ∃ request, .requestVote request ∈ v.waiting ∧ request.serverId = v.votedId) :
    Kept (v.record event saveOk effect) := by
  have hiff : v.currentTerm ∉ pending v.toElectionNode ↔
      effect.node.currentTerm ∉ pending effect.node := by
    rw [hterm]
    exact not_congr ⟨hwaits, fun hmem => hwaiting.subset hmem⟩
  obtain ⟨hfile, hgiven, hsound⟩ := record_sound effect h hok
    (by rw [hsaved, Option.getD_none]) h.given fun vote hvote => by
      rw [hown, List.nil_append] at hvote
      obtain ⟨rfl, request, hrequest, hfor⟩ := hanswered vote hvote
      obtain ⟨hne, hother⟩ := h.requests request hrequest
      rw [hfor] at hne hother
      rcases h.vote with hsaved | hunsaved
      · rw [hsaved.file]
        exact ⟨rfl, hne⟩
      · exact absurd hunsaved.voted hother
  refine ⟨haround.serverId ▸ h.named, ?_, ?_, ?_, ?_, ?_, hrequests, ?_, hfile ▸ hgiven,
    hsound⟩
  · exact hfile ▸ hobject.trans h.object
  · exact (congrArg toInt32 hterm).trans (h.fits.trans hterm.symm)
  · exact hfile ▸ h.fileFits
  · exact fun t ht => (h.behind t (hwaiting.subset ht)).trans hterm.ge
  · exact h.ordered.sublist hwaiting
  · refine h.vote.imp (fun hs => ⟨hsaving.trans hs.saving, hiff.mp hs.waiting, ?_⟩)
      fun hu => ⟨hsaving ▸ hu.saving.trans hiff, ?_, ?_⟩
    · rw [hfile, hs.file]
      exact congrArg₂ MetaStorage.mk hterm.symm hvoted.symm
    · rw [hfile]
      exact hu.file.trans_eq hterm.symm
    · exact hvoted.trans (hu.voted.trans haround.serverId.symm)

private theorem Kept.turn_stepsDown (h : Kept v)
    (hok : SaveOk v (.handle event saveOk)) (hown : ownVote v.toElectionNode event = [])
    (haround : Around v.toElectionNode effect.node event)
    (hrequests : ∀ request, .requestVote request ∈ effect.node.waiting →
      Named effect.node.serverId request)
    {term : Int} (hfits : toInt32 term = term) (hhigher : v.currentTerm < term)
    (hsaved : saves v.toElectionNode event = some ⟨term, .empty⟩)
    (hterm : effect.node.currentTerm = toInt32 term) (hvoted : effect.node.votedId = .empty)
    (hobject : effect.node.metaStorage = ⟨term, .empty⟩) (hsaving : effect.node.saving = false)
    (hwaiting : pending effect.node = pending v.toElectionNode)
    (hanswered : votes effect.sent = []) :
    Kept (v.record event saveOk effect) := by
  have hlater := h.file_le.trans_lt hhigher
  obtain ⟨hfile, hgiven, hsound⟩ := record_sound effect h hok
    (by rw [hsaved, Option.getD_some]) (h.given_later hlater) (silent hown hanswered)
  have hnew : effect.node.currentTerm = term := hterm.trans hfits
  refine ⟨haround.serverId ▸ h.named, ?_, ?_, ?_, ?_, ?_, hrequests, .inl ⟨hsaving, ?_, ?_⟩,
    hfile ▸ hgiven, hsound⟩
  · exact hfile ▸ hobject
  · exact (congrArg toInt32 hnew).trans (hfits.trans hnew.symm)
  · exact hfile ▸ hfits
  · exact fun t ht => (h.behind t (hwaiting ▸ ht)).trans (hhigher.le.trans hnew.ge)
  · exact (congrArg (List.Pairwise (· < ·)) hwaiting).mpr h.ordered
  · intro hmem
    have hle := h.behind _ (hwaiting ▸ hmem)
    exact absurd hle (not_le.mpr (hhigher.trans_eq hnew.symm))
  · rw [hfile]
    exact congrArg₂ MetaStorage.mk hnew.symm hvoted.symm

private theorem Kept.turn_elects (h : Kept v)
    (hok : SaveOk v (.handle event saveOk)) (hown : ownVote v.toElectionNode event = [])
    (haround : Around v.toElectionNode effect.node event)
    (hrequests : ∀ request, .requestVote request ∈ effect.node.waiting →
      Named effect.node.serverId request)
    (hsaved : saves v.toElectionNode event = none) (hoverflow : v.currentTerm + 1 < 2 ^ 31)
    (hterm : effect.node.currentTerm = v.currentTerm + 1)
    (hvoted : effect.node.votedId = v.serverId)
    (hobject : effect.node.metaStorage = v.metaStorage) (hsaving : effect.node.saving = false)
    (hwaiting : pending effect.node = pending v.toElectionNode ++ [v.currentTerm + 1])
    (hanswered : votes effect.sent = []) :
    Kept (v.record event saveOk effect) := by
  obtain ⟨hfile, hgiven, hsound⟩ := record_sound effect h hok
    (by rw [hsaved, Option.getD_none]) h.given (silent hown hanswered)
  refine ⟨haround.serverId ▸ h.named, ?_, ?_, ?_, ?_, ?_, hrequests, .inr ⟨?_, ?_, ?_⟩,
    hfile ▸ hgiven, hsound⟩
  · exact hfile ▸ hobject.trans h.object
  · refine (congrArg toInt32 hterm).trans (Eq.trans (fits_iff.mpr ⟨?_, hoverflow⟩) hterm.symm)
    exact (fits_iff.mp h.fits).1.trans (Int.le_add_one (le_refl _))
  · exact hfile ▸ h.fileFits
  · intro t ht
    rw [show (v.record event saveOk effect).toElectionNode = effect.node from rfl, hterm]
    rcases List.mem_append.mp (hwaiting ▸ ht) with ht | ht
    · exact (h.behind t ht).trans (Int.le_add_one (le_refl _))
    · exact (List.mem_singleton.mp ht).le
  · refine (congrArg (List.Pairwise (· < ·)) hwaiting).mpr (List.pairwise_append.mpr
      ⟨h.ordered, List.pairwise_singleton _ _, fun t ht last hlast => ?_⟩)
    rw [List.mem_singleton.mp hlast]
    exact Int.lt_add_one_of_le (h.behind t ht)
  · refine iff_of_false (fun htrue => ?_) (fun hout => hout ?_)
    · exact Bool.false_ne_true (hsaving.symm.trans htrue)
    · refine (congrArg (effect.node.currentTerm ∈ ·) hwaiting).mpr ?_
      rw [hterm]
      exact List.mem_append_right _ (List.mem_singleton_self _)
  · rw [hfile]
    exact (Int.lt_add_one_of_le h.file_le).trans_eq hterm.symm
  · exact hvoted.trans haround.serverId.symm

private theorem Kept.turn_startsSaving (h : Kept v)
    (hok : SaveOk v (.handle event saveOk)) (hown : ownVote v.toElectionNode event = [])
    (haround : Around v.toElectionNode effect.node event)
    (hrequests : ∀ request, .requestVote request ∈ effect.node.waiting →
      Named effect.node.serverId request)
    (hsaved : saves v.toElectionNode event = none)
    (hterm : effect.node.currentTerm = v.currentTerm) (hvoted : effect.node.votedId = v.votedId)
    (hobject : effect.node.metaStorage = v.metaStorage) (hsaving : effect.node.saving = true)
    (hwaiting : ∃ front back, pending v.toElectionNode = front ++ v.currentTerm :: back ∧
      pending effect.node = front ++ back)
    (hanswered : votes effect.sent = []) :
    Kept (v.record event saveOk effect) := by
  obtain ⟨front, back, hsplit, hrest⟩ := hwaiting
  obtain ⟨hfile, hgiven, hsound⟩ := record_sound effect h hok
    (by rw [hsaved, Option.getD_none]) h.given (silent hown hanswered)
  have hsub : (pending effect.node).Sublist (pending v.toElectionNode) := by
    rw [hsplit, hrest]
    exact (List.sublist_cons_self _ _).append_left front
  have hunsaved : Unsaved v := by
    refine h.vote.resolve_left fun hs => hs.waiting ?_
    rw [hsplit]
    exact List.mem_append_right _ List.mem_cons_self
  refine ⟨haround.serverId ▸ h.named, ?_, ?_, ?_, ?_, ?_, hrequests, .inr ⟨?_, ?_, ?_⟩,
    hfile ▸ hgiven, hsound⟩
  · exact hfile ▸ hobject.trans h.object
  · exact (congrArg toInt32 hterm).trans (h.fits.trans hterm.symm)
  · exact hfile ▸ h.fileFits
  · exact fun t ht => (h.behind t (hsub.subset ht)).trans hterm.ge
  · exact h.ordered.sublist hsub
  · refine iff_of_true hsaving ?_
    -- The terms of the waiting elections ascend, so this one was there once.
    have hordered := h.ordered
    rw [hsplit, List.pairwise_append] at hordered
    obtain ⟨-, hback, hcross⟩ := hordered
    intro hmem
    rw [show (v.record event saveOk effect).toElectionNode = effect.node from rfl, hterm, hrest]
      at hmem
    rcases List.mem_append.mp hmem with hmem | hmem
    · exact lt_irrefl _ (hcross _ hmem _ List.mem_cons_self)
    · exact lt_irrefl _ (List.rel_of_pairwise_cons hback hmem)
  · rw [hfile]
    exact hunsaved.file.trans_eq hterm.symm
  · exact hvoted.trans (hunsaved.voted.trans haround.serverId.symm)

private theorem Kept.turn_casts (h : Kept v)
    (hok : SaveOk v (.handle event saveOk)) (hown : ownVote v.toElectionNode event = [])
    (haround : Around v.toElectionNode effect.node event)
    (hrequests : ∀ request, .requestVote request ∈ effect.node.waiting →
      Named effect.node.serverId request)
    {request : RequestVoteRequest} (hasked : .requestVote request ∈ v.waiting)
    (hfresh : v.votedId = .empty)
    (hsaved : saves v.toElectionNode event = some ⟨v.metaStorage.term, request.serverId⟩)
    (hterm : effect.node.currentTerm = v.currentTerm)
    (hvoted : effect.node.votedId = request.serverId)
    (hobject : effect.node.metaStorage = ⟨v.metaStorage.term, request.serverId⟩)
    (hsaving : effect.node.saving = v.saving)
    (hwaiting : (pending effect.node).Sublist (pending v.toElectionNode))
    (hanswered : votes effect.sent = [(v.currentTerm, request.serverId)]) :
    Kept (v.record event saveOk effect) := by
  obtain ⟨hempty, hearlier⟩ := h.fresh hfresh
  have hcurrent : v.file.term = v.currentTerm := congrArg MetaStorage.term hempty
  have hobjectTerm : v.metaStorage.term = v.file.term := congrArg MetaStorage.term h.object
  have hsavedVote : Saved v := by
    refine h.vote.resolve_right fun hu => ?_
    exact absurd hcurrent hu.file.ne
  obtain ⟨hfile, hgiven, hsound⟩ := record_sound effect h hok
    (show _ = MetaStorage.mk v.file.term request.serverId by
      rw [hsaved, Option.getD_some, hobjectTerm])
    (fun grant hgrant => ⟨(h.given grant hgrant).1, (hearlier grant hgrant).le,
      fun heq => absurd heq (hearlier grant hgrant).ne⟩)
    fun vote hvote => by
      rw [hown, hanswered, List.nil_append, List.mem_singleton] at hvote
      exact ⟨hvote.trans (congrArg₂ Prod.mk hcurrent.symm rfl), (h.requests request hasked).1⟩
  refine ⟨haround.serverId ▸ h.named, ?_, ?_, ?_, ?_, ?_, hrequests, .inl ⟨?_, ?_, ?_⟩,
    hfile ▸ hgiven, hsound⟩
  · exact hfile ▸ hobject.trans (congrArg₂ MetaStorage.mk hobjectTerm rfl)
  · exact (congrArg toInt32 hterm).trans (h.fits.trans hterm.symm)
  · exact hfile ▸ h.fileFits
  · exact fun t ht => (h.behind t (hwaiting.subset ht)).trans hterm.ge
  · exact h.ordered.sublist hwaiting
  · exact hsaving.trans hsavedVote.saving
  · intro hmem
    exact hsavedVote.waiting (hterm ▸ hwaiting.subset hmem)
  · rw [hfile]
    exact congrArg₂ MetaStorage.mk (hcurrent.trans hterm.symm) hvoted.symm

theorem Kept.turn (h : Kept v) (hok : SaveOk v (.handle event saveOk))
    (hproper : Proper v (.handle event saveOk)) (hown : ownVote v.toElectionNode event = [])
    (hturn : Turn conf flag v.toElectionNode event effect)
    (haround : Around v.toElectionNode effect.node event) :
    Kept (v.record event saveOk effect) := by
  have hrequests := h.requests_around haround hproper.2
  cases hturn with
  | keeps hsaved hterm hvoted hobject hsaving hwaiting hwaits hanswered =>
    exact h.turn_keeps hok hown haround hrequests hsaved hterm hvoted hobject hsaving hwaiting
      hwaits hanswered
  | stepsDown term hto hhigher hsaved hterm hvoted hobject hsaving hwaiting hanswered =>
    exact h.turn_stepsDown hok hown haround hrequests (hproper.1 term hto hhigher) hhigher hsaved
      hterm hvoted hobject hsaving hwaiting hanswered
  | elects hsaved hoverflow hterm hvoted hobject hsaving hwaiting hanswered =>
    exact h.turn_elects hok hown haround hrequests hsaved hoverflow hterm hvoted hobject hsaving
      hwaiting hanswered
  | startsSaving hsaved hterm hvoted hobject hsaving hwaiting hanswered =>
    exact h.turn_startsSaving hok hown haround hrequests hsaved hterm hvoted hobject hsaving
      hwaiting hanswered
  | casts request hasked hfresh hsaved hterm hvoted hobject hsaving hwaiting hwaits hanswered =>
    exact h.turn_casts hok hown haround hrequests hasked hfresh hsaved hterm hvoted hobject hsaving
      hwaiting hanswered

private theorem saveVote_role (n : ElectionNode) :
    n.saveVote.node.serverId = n.serverId ∧ n.saveVote.node.currentTerm = n.currentTerm ∧
      n.saveVote.node.votedId = n.votedId ∧
      n.saveVote.node.metaStorage = ⟨n.currentTerm, n.serverId⟩ := by
  unfold ElectionNode.saveVote
  dsimp only
  split_ifs <;> exact ⟨rfl, rfl, rfl, rfl⟩

private theorem saveVote_threads (n : ElectionNode) :
    n.saveVote.node.waiting = n.waiting ∧ n.saveVote.node.saving = false ∧
      n.saveVote.sent = [] := by
  unfold ElectionNode.saveVote
  dsimp only
  split_ifs <;> exact ⟨rfl, rfl, rfl⟩

/-- The end of `elect_self`: the vote of the node for itself is on disk when it counts. -/
theorem Kept.saveVote (h : Kept v) (hok : SaveOk v (.handle .saveVote saveOk))
    (hsaving : v.saving = true) : Kept (v.record .saveVote saveOk v.saveVote) := by
  obtain ⟨hserver, hterm, hvoted, hobject⟩ := saveVote_role v.toElectionNode
  obtain ⟨hwaiting, hdone, hsent⟩ := saveVote_threads v.toElectionNode
  have hpending : pending v.saveVote.node = pending v.toElectionNode := by
    unfold pending
    rw [hwaiting]
  have hunsaved : Unsaved v := h.vote.resolve_left fun hs => by
    rw [hs.saving] at hsaving
    cases hsaving
  have hsaves : saves v.toElectionNode .saveVote = some ⟨v.currentTerm, v.serverId⟩ := if_pos hsaving
  obtain ⟨hfile, hgiven, hsound⟩ := record_sound v.saveVote h hok (by rw [hsaves, Option.getD_some])
    (h.given_later hunsaved.file) fun vote hvote => by
      rw [hsent, votes_nil, List.append_nil, ownVote, if_pos hsaving, List.mem_singleton] at hvote
      exact ⟨hvote, h.named⟩
  refine ⟨?_, ?_, ?_, ?_, ?_, ?_, ?_, .inl ⟨hdone, ?_, ?_⟩, hfile ▸ hgiven, hsound⟩
  · exact hserver ▸ h.named
  · exact hfile ▸ hobject
  · exact (congrArg toInt32 hterm).trans (h.fits.trans hterm.symm)
  · exact hfile ▸ h.fits
  · exact fun t ht => (h.behind t (hpending ▸ ht)).trans hterm.ge
  · exact (congrArg (List.Pairwise (· < ·)) hpending).mpr h.ordered
  · intro request hrequest
    exact hserver ▸ h.requests request (hwaiting ▸ hrequest)
  · intro hmem
    exact hunsaved.saving.mp hsaving (hterm ▸ hpending ▸ hmem)
  · rw [hfile]
    exact congrArg₂ MetaStorage.mk hterm.symm (hunsaved.voted.symm.trans hvoted.symm)

private theorem effectOf_saving (conf : Configuration) (flag : Bool) {n : ElectionNode}
    (hsaving : n.saving = true) (hevent : event ≠ .saveVote) :
    effectOf conf flag n event = some n.quiet ∧ saves n event = none ∧ ownVote n event = [] := by
  unfold effectOf saves
  rw [if_pos hsaving, if_pos hsaving]
  cases event with
  | saveVote => exact absurd rfl hevent
  | _ => exact ⟨rfl, rfl, rfl⟩

theorem Kept.handle (h : Kept v) (hok : SaveOk v (.handle event saveOk))
    (hproper : Proper v (.handle event saveOk))
    (heffect : effectOf conf flag v.toElectionNode event = some effect) :
    Kept (v.record event saveOk effect) := by
  cases hsaving : v.saving with
  | true =>
    by_cases hevent : event = .saveVote
    · subst hevent
      simp only [effectOf, hsaving, if_true] at heffect
      cases heffect
      exact h.saveVote hok hsaving
    · obtain ⟨hquiet, hnone, hown⟩ := effectOf_saving conf flag hsaving hevent
      rw [hquiet] at heffect
      cases heffect
      have hturn : Turn conf flag v.toElectionNode event v.quiet :=
        .of_eq hnone rfl rfl rfl rfl rfl rfl
      exact h.turn hok hproper hown hturn (.of_waiting rfl rfl)
  | false =>
    simp only [effectOf, hsaving, Bool.false_eq_true, if_false] at heffect
    refine h.turn hok hproper ?_ (handle_turn hsaving heffect) (handle_around heffect)
    cases event with
    | saveVote => exact if_neg (by rw [hsaving]; exact Bool.false_ne_true)
    | _ => rfl

theorem Kept.step {event : Event} (h : Kept v) (hproper : Proper v event) (hok : SaveOk v event)
    (hstep : v.step conf flag event = some v') : Kept v' := by
  cases event with
  | restart =>
    cases hstep
    exact h.restart
  | handle event saveOk =>
    obtain ⟨effect, heffect, rfl⟩ := Option.map_eq_some_iff.mp hstep
    exact h.handle hok hproper heffect

theorem Kept.changes (h : Kept v) {pair : MetaStorage}
    (hsaves : saves v.toElectionNode event = some pair)
    (heffect : effectOf conf flag v.toElectionNode event = some effect) :
    effect.node.metaStorage ≠ v.metaStorage := by
  rw [h.object]
  cases hsaving : v.saving with
  | true =>
    have hunsaved : Unsaved v := h.vote.resolve_left fun hs => by
      rw [hs.saving] at hsaving
      cases hsaving
    by_cases hevent : event = .saveVote
    · subst hevent
      simp only [effectOf, hsaving, if_true] at heffect
      cases heffect
      intro heq
      have hobject := (saveVote_role v.toElectionNode).2.2.2
      exact hunsaved.file.ne (congrArg MetaStorage.term (heq.symm.trans hobject))
    · rw [(effectOf_saving conf flag hsaving hevent).2.1] at hsaves
      cases hsaves
  | false =>
    simp only [effectOf, hsaving, Bool.false_eq_true, if_false] at heffect
    cases handle_turn hsaving heffect with
    | keeps hnone | elects hnone | startsSaving hnone =>
      rw [hnone] at hsaves
      cases hsaves
    | stepsDown term hto hhigher hsaved hterm hvoted hobject =>
      intro heq
      have hlater := h.file_le.trans_lt hhigher
      exact hlater.ne (congrArg MetaStorage.term (heq.symm.trans hobject))
    | casts request hasked hfresh hsaved hterm hvoted hobject =>
      intro heq
      have hempty := congrArg MetaStorage.votedfor (h.fresh hfresh).1
      have hfor := congrArg MetaStorage.votedfor (hobject.symm.trans heq)
      exact (h.requests request hasked).1 (hfor.trans hempty)

private theorem metaStorage_saves
    (heffect : effectOf conf flag v.toElectionNode event = some effect) :
    effect.node.metaStorage = (saves v.toElectionNode event).getD v.metaStorage := by
  cases hsaving : v.saving with
  | true =>
    by_cases hevent : event = .saveVote
    · subst hevent
      have hsaves : saves v.toElectionNode .saveVote = some ⟨v.currentTerm, v.serverId⟩ :=
        if_pos hsaving
      simp only [effectOf, hsaving, if_true] at heffect
      cases heffect
      rw [hsaves, Option.getD_some]
      exact (saveVote_role v.toElectionNode).2.2.2
    · obtain ⟨hquiet, hnone, -⟩ := effectOf_saving conf flag hsaving hevent
      rw [hquiet] at heffect
      cases heffect
      rw [hnone]
      rfl
  | false =>
    simp only [effectOf, hsaving, Bool.false_eq_true, if_false] at heffect
    cases handle_turn hsaving heffect with
    | keeps hsaved hterm hvoted hobject | elects hsaved hoverflow hterm hvoted hobject
    | startsSaving hsaved hterm hvoted hobject =>
      rw [hsaved, Option.getD_none, hobject]
    | stepsDown term hto hhigher hsaved hterm hvoted hobject =>
      rw [hsaved, Option.getD_some, hobject]
    | casts request hasked hfresh hsaved hterm hvoted hobject =>
      rw [hsaved, Option.getD_some, hobject]

private theorem effectOf_defined (conf : Configuration) (flag : Bool) {pair : MetaStorage}
    (hsaves : saves v.toElectionNode event = some pair) :
    ∃ effect, effectOf conf flag v.toElectionNode event = some effect := by
  have hdefined : ∃ n', TermGrowth.step conf flag v.toElectionNode event = some n' := by
    refine TermGrowth.step_defined fun hsaving helects => ?_
    have hnone : saves v.toElectionNode event = none := by
      refine saves_of_low hsaving (fun position id heq => ?_) helects.low
      rw [heq] at helects
      cases helects
    rw [hnone] at hsaves
    cases hsaves
  obtain ⟨n', hn'⟩ := hdefined
  rw [step_eq_effectOf] at hn'
  obtain ⟨effect, heffect, -⟩ := Option.map_eq_some_iff.mp hn'
  exact ⟨effect, heffect⟩

private theorem Kept.saveOk_of_sound {event : Event} (h : Kept v)
    (hsound : ∀ t, v.step conf flag event = some t → Sound t) : SaveOk v event := by
  cases event with
  | restart => trivial
  | handle event saveOk =>
    intro hsome
    by_contra hno
    obtain ⟨pair, hpair⟩ := Option.isSome_iff_exists.mp hsome
    obtain ⟨effect, heffect⟩ := effectOf_defined conf flag hpair
    have hstep : v.step conf flag (.handle event saveOk) = some (v.record event saveOk effect) := by
      simp only [Voter.step, heffect, Option.map_some]
    refine h.changes hpair heffect ((hsound _ hstep).unchanged (v.metaStorage, _) ?_)
    simp only [Voter.record]
    rw [if_pos ⟨hsome, by simpa using hno⟩]
    exact List.mem_append_right _ (List.mem_singleton_self _)

end Turns

variable {serverId : PeerId} {file : MetaStorage} {events : List Event}

private theorem votesKept_of_guarded (h : Kept v)
    (hproper : Guarded (Voter.step conf flag) Proper v events)
    (hok : Guarded (Voter.step conf flag) SaveOk v events) {pre post : List Event}
    (hsplit : events = pre ++ post) (hrun : runEvents (Voter.step conf flag) v pre = some v') :
    Sound v' := by
  subst hsplit
  have hguard := guarded_and.mpr ⟨guarded_append_left hproper, guarded_append_left hok⟩
  exact (invariant_of_step (fun _ _ _ hs hg hstep => hs.step hg.1 hg.2 hstep) h hguard hrun).sound

private theorem guarded_of_votesKept (h : Kept v)
    (hproper : Guarded (Voter.step conf flag) Proper v events)
    (hkept : ∀ pre post t, events = pre ++ post →
      runEvents (Voter.step conf flag) v pre = some t → Sound t) :
    Guarded (Voter.step conf flag) SaveOk v events := by
  induction events generalizing v with
  | nil => trivial
  | cons event events ih =>
    have hok : SaveOk v event := h.saveOk_of_sound fun t ht => hkept [event] events t rfl
      (runEvents_cons_eq_some.mpr ⟨t, ht, rfl⟩)
    refine ⟨hok, fun t ht => ih (h.step hproper.1 hok ht) (hproper.2 t ht) ?_⟩
    rintro pre post u rfl hrun
    exact hkept (event :: pre) post u rfl (runEvents_cons_eq_some.mpr ⟨t, ht, hrun⟩)

end Runs

section Files

open HitConsistency.Base.CrashFiles
open HitConsistency.Group.PeerText
open HitConsistency.Node.DurableMeta

variable {addresses : AddressText} {codec : MetaCodec} {sync : Bool} {host : Host} {v : Voter}

/-- The meta storage behind a voter: the object in use, and the one that would be loaded. -/
structure Stands (addresses : AddressText) (codec : MetaCodec) (host : Host) (v : Voter) : Prop where
  inited : host.storage.isInited = true
  fits : Fits host.storage.votedfor
  object : host.storage.pair = some v.metaStorage
  file : ∃ storage, (LocalRaftMetaStorage.new host.storage.path).init addresses codec host.fs =
    some (storage, true) ∧ storage.pair = some v.file

/-- A save that ends early, at the latest with the rename, leaves the old file; the object has
been assigned all the same. -/
theorem Stands.record (h : Stands addresses codec host v) {event : TermGrowth.Event} {effect : Effect}
    {conf : Configuration} {flag : Bool}
    (heffect : effectOf conf flag v.toElectionNode event = some effect) {c : Call}
    (hsaves : saves v.toElectionNode event = some (c.effect v.metaStorage))
    (hfits : Fits (host.storage.assign c).votedfor) :
    Stands addresses codec ⟨runAll host.fs ((host.storage.assign c).saveOps addresses codec sync),
        host.storage.assign c⟩ (v.record event true effect) ∧
      ∀ point : CrashPoint, point.completed ≤ (ProtoBufFile.writeOps
          (host.storage.assign c).metaPath sync
          (codec.serialize ((host.storage.assign c).message addresses))).length →
        Stands addresses codec ⟨crashAt host.fs
          ((host.storage.assign c).saveOps addresses codec sync) point, host.storage.assign c⟩
          (v.record event false effect) := by
  have hinited : (host.storage.assign c).isInited = true := by
    cases c <;> exact h.inited
  have hpath : (host.storage.assign c).path = host.storage.path := by cases c <;> rfl
  have hpair : v.metaStorage = ⟨host.storage.term.toInt, host.storage.votedfor⟩ := by
    have hobject := h.object
    rw [LocalRaftMetaStorage.pair, if_pos h.inited] at hobject
    exact (Option.some.inj hobject).symm
  have hassign : (host.storage.assign c).pair = some (c.effect v.metaStorage) := by
    rw [LocalRaftMetaStorage.pair, if_pos hinited, hpair]
    cases c <;> rfl
  have hobject : (host.storage.assign c).pair = some effect.node.metaStorage := by
    rw [hassign, metaStorage_saves heffect, hsaves, Option.getD_some]
  refine ⟨⟨hinited, hfits, hobject, host.storage.assign c, ?_, ?_⟩, fun point hpoint =>
    ⟨hinited, hfits, hobject, ?_⟩⟩
  · exact init_saved hfits hinited rfl
  · rw [hassign]
    simp only [Voter.record, if_true, hsaves, Option.getD_some]
  · obtain ⟨storage, hinit, hfile⟩ := h.file
    refine ⟨storage, ?_, hfile⟩
    have hspares := ProtoBufFile.writeOps_spares (host.storage.assign c).metaPath sync
      (codec.serialize ((host.storage.assign c).message addresses))
    have hkept : crashAt host.fs ((host.storage.assign c).saveOps addresses codec sync) point
        (host.storage.assign c).metaPath = host.fs (host.storage.assign c).metaPath :=
      crashAt_early hspares host.fs hpoint
    have hmeta : (host.storage.assign c).metaPath =
        (LocalRaftMetaStorage.new host.storage.path).metaPath := by
      unfold LocalRaftMetaStorage.metaPath
      rw [hpath]
      rfl
    rw [hmeta] at hkept
    show (LocalRaftMetaStorage.new (host.storage.assign c).path).init addresses codec _ = _
    rw [hpath]
    exact (init_congr hkept).trans hinit

end Files

/-- In a run with terms of 32 bits and with requests of other nodes, votes are kept exactly as
long as every save succeeds. -/
theorem votesKept_iff (conf : Configuration) (stepDownWhenVoteTimedout : Bool) (serverId : PeerId)
    (file : MetaStorage) (events : List Event) (hid : serverId ≠ .empty)
    (hfile : toInt32 file.term = file.term)
    (hproper : Guarded (Voter.step conf stepDownWhenVoteTimedout) Proper (.boot serverId file)
      events) :
    VotesKept conf stepDownWhenVoteTimedout serverId file events ↔
      Guarded (Voter.step conf stepDownWhenVoteTimedout) SaveOk (.boot serverId file) events :=
  ⟨guarded_of_votesKept (.start hid hfile) hproper,
    fun hok _ _ _ => votesKept_of_guarded (.start hid hfile) hproper hok⟩

private def voter : PeerId := ⟨1, 8000, 0⟩

private def group : Configuration := ⟨[voter, ⟨2, 8001, 0⟩, ⟨3, 8002, 0⟩], by decide⟩

private def ask (candidate : PeerId) : TermGrowth.Event :=
  .requestVote ⟨candidate, voter, 1, 0, 0⟩

private def answer (saveOk : Bool) : Event := .handle (.resume 0 ⟨0, 0⟩) saveOk

/-- One candidate of the term, and a vote that is saved. -/
theorem votesKept_iff_saved :
    Guarded (Voter.step group false) SaveOk (.boot voter ⟨1, .empty⟩)
        [.handle (ask ⟨2, 8001, 0⟩) true, answer true] ∧
      VotesKept group false voter ⟨1, .empty⟩ [.handle (ask ⟨2, 8001, 0⟩) true, answer true] := by
  have hsaved : Guarded (Voter.step group false) SaveOk (.boot voter ⟨1, .empty⟩)
      [.handle (ask ⟨2, 8001, 0⟩) true, answer true] :=
    ⟨fun _ => rfl, fun _ _ => ⟨fun _ => rfl, fun _ _ => trivial⟩⟩
  refine ⟨hsaved,
    (votesKept_iff group false voter ⟨1, .empty⟩ _ (by decide) (by decide) ?_).mpr hsaved⟩
  refine ⟨⟨?_, ?_⟩, ?_⟩
  · intro term hterm
    cases hterm
    decide
  · intro request heq
    cases heq
    exact ⟨by decide, by decide⟩
  · intro v hv
    refine ⟨⟨fun term hterm => (by cases hterm), fun request heq => (by cases heq)⟩, ?_⟩
    exact fun _ _ => trivial

/-- The save of the first vote fails. Behind a restart nothing is known of it, and another
candidate gets a vote of the same term. -/
theorem not_votesKept_restart :
    ¬ VotesKept group false voter ⟨1, .empty⟩
      [.handle (ask ⟨2, 8001, 0⟩) true, answer false, .restart,
        .handle (ask ⟨3, 8002, 0⟩) true, answer true] := by
  intro hkept
  obtain ⟨v, hrun, hgranted⟩ : ∃ v, runEvents (Voter.step group false) (.boot voter ⟨1, .empty⟩)
      [.handle (ask ⟨2, 8001, 0⟩) true, answer false, .restart,
        .handle (ask ⟨3, 8002, 0⟩) true, answer true] = some v ∧
      v.granted = [⟨1, ⟨2, 8001, 0⟩, ⟨1, .empty⟩⟩, ⟨1, ⟨3, 8002, 0⟩, ⟨1, ⟨3, 8002, 0⟩⟩⟩] :=
    ⟨_, rfl, by decide⟩
  have hsound := hkept _ [] v (List.append_nil _).symm hrun
  have hsame := hsound.once ⟨1, ⟨2, 8001, 0⟩, ⟨1, .empty⟩⟩ (by simp [hgranted])
    ⟨1, ⟨3, 8002, 0⟩, ⟨1, ⟨3, 8002, 0⟩⟩⟩ (by simp [hgranted]) rfl
  exact absurd hsame (by decide)

end HitConsistency.Election.VoteRecords
