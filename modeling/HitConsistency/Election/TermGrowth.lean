/- GID: HitConsistency/Election/TermGrowth
   digest: When the term of a node only grows and is the one its meta storage holds. -/

import HitConsistency.Election.VoteProtocol

set_option autoImplicit false
set_option relaxedAutoImplicit false

/-!
One node and the messages it gets, each with any term. The response to an AppendEntries
request or a heartbeat comes to the node as `increase_term_to`. Terms are 64 bits wide
in messages and in the meta storage; `_current_term` has 32 bits.
-/

namespace HitConsistency.Election.TermGrowth

open HitConsistency.Base.GuardedRuns
open HitConsistency.Commit.BallotCount
open HitConsistency.Election.VoteProtocol
open HitConsistency.Election.VoteProtocol.ElectionNode
open HitConsistency.Group.Peers
open HitConsistency.Log.Entry
open HitConsistency.Node.RoleState

inductive Event
  | electionTimeout (lastLogId : LogId)
  | voteTimeout (lastLogId : LogId)
  | prevote (request : RequestVoteRequest)
  | prevoteResponse (peer : PeerId) (term : Int) (response : RequestVoteResponse)
  | requestVote (request : RequestVoteRequest)
  | requestVoteResponse (peer : PeerId) (term : Int) (response : RequestVoteResponse)
  | appendEntries (term : Int) (serverId : PeerId)
  | increaseTermTo (newTerm : Int)
  | stepdownTimeout
  | resume (position : Nat) (lastLogId : LogId)
  | saveVote

def handle (conf : Configuration) (stepDownWhenVoteTimedout : Bool) (n : ElectionNode) :
    Event → Option Effect
  | .electionTimeout lastLogId => some (n.handleElectionTimeout conf lastLogId)
  | .voteTimeout lastLogId => n.handleVoteTimeout conf stepDownWhenVoteTimedout lastLogId
  | .prevote request => some (n.handlePrevote request)
  | .prevoteResponse peer term response => n.handlePreVoteResponse conf peer term response
  | .requestVote request => some (n.handleRequestVote request)
  | .requestVoteResponse peer term response => some (n.handleRequestVoteResponse peer term response)
  | .appendEntries term serverId => some (n.receiveAppendEntries term serverId).quiet
  | .increaseTermTo newTerm => some (n.increaseTermTo newTerm).quiet
  | .stepdownTimeout => some n.handleStepdownTimeout.quiet
  | .resume position lastLogId => some (Cluster.resume conf n position lastLogId)
  | .saveVote => some n.quiet

/-- While `elect_self` saves its vote, no other handler has the mutex. -/
def step (conf : Configuration) (stepDownWhenVoteTimedout : Bool) (n : ElectionNode)
    (event : Event) : Option ElectionNode :=
  if n.saving then
    match event with
    | .saveVote => some n.saveVote.node
    | _ => some n
  else (handle conf stepDownWhenVoteTimedout n event).map Effect.node

/-- The terms of the elections that have given the mutex away. -/
def pending (n : ElectionNode) : List Int :=
  n.waiting.filterMap fun
    | .electSelf oldTerm => some oldTerm
    | _ => none

/-- The meta storage holds the term, or `elect_self` has yet to save it. -/
def Saved (n : ElectionNode) : Prop :=
  n.saving = true ∨ n.currentTerm ∈ pending n ∨ n.currentTerm = n.metaStorage.term

/-- Wherever the run has come, the term is saved, and whatever happens next, it does not
fall. -/
def TermsGrow (conf : Configuration) (stepDownWhenVoteTimedout : Bool) (serverId : PeerId)
    (metaStorage : MetaStorage) (events : List Event) : Prop :=
  ∀ pre post n, events = pre ++ post →
    runEvents (step conf stepDownWhenVoteTimedout) (.boot serverId metaStorage) pre = some n →
      Saved n ∧ ∀ event ∈ post.head?,
        ∃ n', step conf stepDownWhenVoteTimedout n event = some n' ∧ n.currentTerm ≤ n'.currentTerm

/-- The term that an event passes to `step_down`. -/
def stepsDownTo (n : ElectionNode) : Event → Option Int
  | .prevoteResponse _ term response =>
      if n.state = .follower ∧ term = n.currentTerm then some response.term else none
  | .requestVote request => some request.term
  | .requestVoteResponse _ term response =>
      if n.state = .candidate ∧ term = n.currentTerm then some response.term else none
  | .appendEntries term serverId =>
      if term < n.currentTerm then none
      else if serverId ≠ (n.checkStepDown term serverId).leaderId then some (term + 1)
      else some term
  | .increaseTermTo newTerm => some newTerm
  | _ => none

/-- `elect_self` gets past its first check. -/
def Elects (conf : Configuration) (stepDownWhenVoteTimedout : Bool) (n : ElectionNode) :
    Event → Prop
  | .voteTimeout _ =>
      n.state = .candidate ∧ stepDownWhenVoteTimedout = false ∧ conf.contains n.serverId
  | .prevoteResponse peer term response =>
      n.state = .follower ∧ term = n.currentTerm ∧ response.term ≤ n.currentTerm ∧
        response.granted ∧ (n.prevoteCtx.grant peer .new).1.granted ∧ conf.contains n.serverId
  | _ => False

/-- The term is 32 bits wide; or it is cut down to the current one, while an election of that
term is still to be saved. -/
def Fits (n : ElectionNode) (term : Int) : Prop :=
  toInt32 term = term ∨ (toInt32 term = n.currentTerm ∧ n.currentTerm ∈ pending n)

/-- A higher term fits, and the term of an election does not overflow. -/
def TermFits (conf : Configuration) (stepDownWhenVoteTimedout : Bool) (n : ElectionNode)
    (event : Event) : Prop :=
  n.saving = false →
    (∀ term ∈ stepsDownTo n event, n.currentTerm < term → Fits n term) ∧
      (Elects conf stepDownWhenVoteTimedout n event → n.currentTerm + 1 < 2 ^ 31)

/-- What an event does to the term, to the saved term and to the elections that wait. -/
inductive Moves (n n' : ElectionNode) : Prop
  | stays (term : n'.currentTerm = n.currentTerm) (saved : n'.metaStorage.term = n.metaStorage.term)
      (saving : n'.saving = n.saving) (waiting : pending n' ⊆ pending n)
      (waits : n.currentTerm ∈ pending n → n.currentTerm ∈ pending n')
  | startsSaving (term : n'.currentTerm = n.currentTerm) (saving : n'.saving = true)
      (waiting : pending n' ⊆ pending n)
  | saves (term : n'.currentTerm = n.currentTerm) (saved : n'.metaStorage.term = n.currentTerm)
      (waiting : pending n' ⊆ pending n)

structure StepsDown (n n' : ElectionNode) (newTerm : Int) : Prop where
  higher : n.currentTerm < newTerm
  term : n'.currentTerm = toInt32 newTerm
  saved : n'.metaStorage.term = newTerm
  saving : n'.saving = false
  waiting : pending n' = pending n

structure Elected (n n' : ElectionNode) : Prop where
  fits : n.currentTerm + 1 < 2 ^ 31
  term : n'.currentTerm = n.currentTerm + 1
  waiting : pending n' = pending n ++ [n.currentTerm + 1]

section Handlers

variable {conf : Configuration} {flag : Bool} {n n' : ElectionNode} {event : Event}

theorem Moves.of_eq (hterm : n'.currentTerm = n.currentTerm)
    (hsaved : n'.metaStorage.term = n.metaStorage.term) (hsaving : n'.saving = n.saving)
    (hwaiting : pending n' = pending n) : Moves n n' :=
  .stays hterm hsaved hsaving (fun _ h => hwaiting ▸ h) fun h => hwaiting ▸ h

theorem stepDown_not_higher {r : Role} {term : Int} (h : ¬ r.currentTerm < term) :
    r.stepDown term = { r with leaderId := .empty, state := .follower } :=
  if_neg h

theorem stepDown_higher {r : Role} {term : Int} (h : r.currentTerm < term) :
    r.stepDown term = { r with
      leaderId := .empty
      state := .follower
      currentTerm := toInt32 term
      votedId := .empty
      metaStorage := ⟨term, .empty⟩ } :=
  if_pos h

/-- What a handler with the mutex does, beside what the event says about it. -/
inductive Outcome (conf : Configuration) (flag : Bool) (n : ElectionNode) (event : Event)
    (n' : ElectionNode) : Prop
  | stepsDown (term : Int) (reached : stepsDownTo n event = some term) (effect : StepsDown n n' term)
  | elects (elects : Elects conf flag n event) (effect : Elected n n')
  | moves (effect : Moves n n') (low : ∀ term ∈ stepsDownTo n event, ¬ n.currentTerm < term)
      (elects : ¬ Elects conf flag n event)

private theorem outcome_stepDown (term : Int) (hsaving : n.saving = false)
    (hto : stepsDownTo n event = some term) (helects : ¬ Elects conf flag n event)
    (hterm : n'.currentTerm = (n.stepDown term).currentTerm)
    (hsaved : n'.metaStorage.term = (n.stepDown term).metaStorage.term)
    (hsame : n'.saving = n.saving) (hwaiting : pending n' = pending n) :
    Outcome conf flag n event n' := by
  by_cases hhigher : n.currentTerm < term
  · rw [stepDown_higher hhigher] at hterm hsaved
    exact .stepsDown term hto ⟨hhigher, hterm, hsaved, hsame.trans hsaving, hwaiting⟩
  · rw [stepDown_not_higher hhigher] at hterm hsaved
    refine .moves (.of_eq hterm hsaved hsame hwaiting) (fun t ht => ?_) helects
    rw [hto] at ht
    cases ht
    exact hhigher

private theorem electSelf_cases {effect : Effect} (h : n.electSelf conf = some effect) :
    (conf.contains n.serverId = false ∧ effect.node = n) ∨
      (conf.contains n.serverId = true ∧ Elected n effect.node) := by
  unfold ElectionNode.electSelf at h
  split_ifs at h with hcontains hoverflow
  · cases h
    exact .inl ⟨by simpa using hcontains, rfl⟩
  · cases h
    refine .inr ⟨by simpa using hcontains, not_le.mp hoverflow, rfl, ?_⟩
    simp [pending, ElectionNode.wait, ElectionNode.quiet]

private theorem handleVoteTimeout_outcome {lastLogId : LogId} {effect : Effect}
    (h : n.handleVoteTimeout conf flag lastLogId = some effect) :
    Outcome conf flag n (.voteTimeout lastLogId) effect.node := by
  unfold ElectionNode.handleVoteTimeout at h
  split_ifs at h with hstate hflag
  · cases h
    exact .moves (.of_eq rfl rfl rfl rfl) (fun _ ht => by cases ht) fun he => hstate he.1
  · cases h
    have hsame : n.stepDown n.currentTerm = _ := stepDown_not_higher (lt_irrefl _)
    refine .moves ?_ (fun _ ht => by cases ht) fun he => by simp [he.2.1] at hflag
    unfold ElectionNode.prevote
    split_ifs
    · exact .of_eq (by rw [ElectionNode.quiet, hsame]) (by rw [ElectionNode.quiet, hsame]) rfl rfl
    · exact .of_eq (by rw [hsame]) (by rw [hsame]) rfl rfl
  · rcases electSelf_cases h with ⟨hcontains, hnode⟩ | ⟨hcontains, helected⟩
    · rw [hnode]
      refine .moves (.of_eq rfl rfl rfl rfl) (fun _ ht => by cases ht) fun he => ?_
      exact absurd he.2.2 (by simp [hcontains])
    · exact .elects ⟨not_not.mp hstate, by simpa using hflag, hcontains⟩ helected

theorem low_prevoteResponse (peer : PeerId) (term : Int) {response : RequestVoteResponse}
    (hlow : ¬ n.currentTerm < response.term) :
    ∀ t ∈ stepsDownTo n (.prevoteResponse peer term response), ¬ n.currentTerm < t := by
  intro t ht
  simp only [stepsDownTo] at ht
  split_ifs at ht
  · cases ht
    exact hlow
  · cases ht

theorem low_requestVoteResponse {peer : PeerId} {term : Int} {response : RequestVoteResponse}
    (hlow : ¬ n.currentTerm < response.term) :
    ∀ t ∈ stepsDownTo n (.requestVoteResponse peer term response), ¬ n.currentTerm < t := by
  intro t ht
  simp only [stepsDownTo] at ht
  split_ifs at ht
  · cases ht
    exact hlow
  · cases ht

private theorem handlePreVoteResponse_outcome {peer : PeerId} {term : Int}
    {response : RequestVoteResponse}
    {effect : Effect} (hsaving : n.saving = false)
    (h : n.handlePreVoteResponse conf peer term response = some effect) :
    Outcome conf flag n (.prevoteResponse peer term response) effect.node := by
  unfold ElectionNode.handlePreVoteResponse at h
  split_ifs at h with hstate hterm hhigher hgranted
  · cases h
    refine .moves (.of_eq rfl rfl rfl rfl) (fun _ ht => ?_) fun he => hstate he.1
    simp [stepsDownTo, hstate] at ht
  · cases h
    refine .moves (.of_eq rfl rfl rfl rfl) (fun _ ht => ?_) fun he => hterm he.2.1
    simp [stepsDownTo, hterm] at ht
  · cases h
    refine outcome_stepDown _ hsaving ?_ (fun he => ?_) rfl rfl rfl rfl
    · exact if_pos ⟨not_not.mp hstate, not_not.mp hterm⟩
    · exact absurd hhigher (not_lt.mpr he.2.2.1)
  · have hlow := low_prevoteResponse peer term hhigher
    dsimp only at h
    split_ifs at h with hquorum
    · rcases electSelf_cases h with ⟨hcontains, hnode⟩ | ⟨hcontains, helected⟩
      · rw [hnode]
        refine .moves (.of_eq rfl rfl rfl rfl) hlow fun he => ?_
        exact absurd he.2.2.2.2.2 (by simpa using hcontains)
      · exact .elects ⟨not_not.mp hstate, not_not.mp hterm, not_lt.mp hhigher, hgranted, hquorum,
          hcontains⟩ ⟨helected.fits, helected.term, helected.waiting⟩
    · cases h
      exact .moves (.of_eq rfl rfl rfl rfl) hlow fun he => hquorum he.2.2.2.2.1
  · cases h
    exact .moves (.of_eq rfl rfl rfl rfl) (low_prevoteResponse peer term hhigher) fun he =>
      hgranted he.2.2.2.1

private theorem handleRequestVoteResponse_outcome {peer : PeerId} {term : Int}
    {response : RequestVoteResponse} (hsaving : n.saving = false) :
    Outcome conf flag n (.requestVoteResponse peer term response)
      (n.handleRequestVoteResponse peer term response).node := by
  unfold ElectionNode.handleRequestVoteResponse
  split_ifs with hstate hterm hhigher hgranted
  · refine .moves (.of_eq rfl rfl rfl rfl) (fun _ ht => ?_) id
    simp [stepsDownTo, hstate] at ht
  · refine .moves (.of_eq rfl rfl rfl rfl) (fun _ ht => ?_) id
    simp [stepsDownTo, hterm] at ht
  · refine outcome_stepDown response.term hsaving ?_ id rfl rfl rfl rfl
    exact if_pos ⟨not_not.mp hstate, not_not.mp hterm⟩
  · dsimp only
    split_ifs <;> exact .moves (.of_eq rfl rfl rfl rfl) (low_requestVoteResponse hhigher) id
  · exact .moves (.of_eq rfl rfl rfl rfl) (low_requestVoteResponse hhigher) id

private theorem handleRequestVote_outcome {request : RequestVoteRequest}
    (hsaving : n.saving = false) :
    Outcome conf flag n (.requestVote request) (n.handleRequestVote request).node := by
  have hwaits : ∀ m : ElectionNode, pending (m.wait (.requestVote request)).node = pending m := by
    intro m
    simp [pending, ElectionNode.wait, ElectionNode.quiet]
  unfold ElectionNode.handleRequestVote
  split_ifs with hlower hhigher
  · refine .moves (.of_eq rfl rfl rfl rfl) (fun t ht => ?_) id
    cases ht
    exact not_lt.mpr hlower.le
  · exact outcome_stepDown _ hsaving rfl id rfl rfl rfl (hwaits _)
  · refine .moves (.of_eq rfl rfl rfl (hwaits n)) (fun t ht => ?_) id
    cases ht
    exact hhigher

theorem checkStepDown_leaderId {r : Role} {term : Int} (h : r.currentTerm < term)
    (serverId : PeerId) : (r.checkStepDown term serverId).leaderId = serverId := by
  unfold Role.checkStepDown
  rw [if_pos h, stepDown_higher h]
  rfl

/-- The role behind the message of a leader, in terms of one call of `step_down`. -/
theorem checkStepDown_stepDown (r : Role) (term : Int) (serverId : PeerId) :
    (r.checkStepDown term serverId).currentTerm = (r.stepDown term).currentTerm ∧
      (r.checkStepDown term serverId).votedId = (r.stepDown term).votedId ∧
      (r.checkStepDown term serverId).metaStorage = (r.stepDown term).metaStorage := by
  unfold Role.checkStepDown Role.stepDown
  dsimp only
  split_ifs <;> exact ⟨rfl, rfl, rfl⟩

private theorem receiveAppendEntries_outcome {term : Int} {serverId : PeerId}
    (hsaving : n.saving = false) :
    Outcome conf flag n (.appendEntries term serverId) (n.receiveAppendEntries term serverId) := by
  obtain ⟨hterm, -, hobject⟩ := checkStepDown_stepDown n.toRole term serverId
  have hsaved := congrArg MetaStorage.term hobject
  unfold ElectionNode.receiveAppendEntries
  split_ifs with hlower
  · refine .moves (.of_eq rfl rfl rfl rfl) (fun t ht => ?_) id
    simp [stepsDownTo, hlower] at ht
  · by_cases hconflict : serverId ≠ (n.checkStepDown term serverId).leaderId
    · have hlow : ¬ n.currentTerm < term := fun hhigher =>
        hconflict (checkStepDown_leaderId hhigher serverId).symm
      rw [stepDown_not_higher hlow] at hterm hsaved
      have hnext : (n.checkStepDown term serverId).currentTerm < term + 1 := by
        rw [hterm]
        exact Int.lt_add_one_of_le (not_lt.mp hlower)
      dsimp only
      rw [if_pos hconflict, stepDown_higher hnext]
      refine .stepsDown (term + 1) ?_ ⟨?_, rfl, rfl, hsaving, rfl⟩
      · simp [stepsDownTo, hlower, hconflict]
      · exact Int.lt_add_one_of_le (not_lt.mp hlower)
    · dsimp only
      rw [if_neg hconflict]
      refine outcome_stepDown term hsaving ?_ id hterm hsaved rfl rfl
      simp [stepsDownTo, hlower, hconflict]

private theorem mem_pending {oldTerm : Int} :
    oldTerm ∈ pending n ↔ .electSelf oldTerm ∈ n.waiting := by
  unfold pending
  rw [List.mem_filterMap]
  constructor
  · rintro ⟨thread, hthread, heq⟩
    cases thread with
    | prevote request => cases heq
    | requestVote request => cases heq
    | electSelf term =>
      cases heq
      exact hthread
  · intro hthread
    exact ⟨_, hthread, rfl⟩

theorem pending_eraseIdx {position : Nat} {thread : Waiting} {oldTerm : Int}
    (hthread : n.waiting[position]? = some thread) (hne : thread ≠ .electSelf oldTerm)
    (hmem : oldTerm ∈ pending n) :
    oldTerm ∈ pending { n with waiting := n.waiting.eraseIdx position } := by
  rw [mem_pending] at hmem ⊢
  obtain ⟨k, hk⟩ := List.getElem?_of_mem hmem
  refine List.mem_eraseIdx_iff_getElem?.mpr ⟨k, ?_, hk⟩
  rintro rfl
  rw [hk] at hthread
  cases hthread
  exact hne rfl

private theorem resume_moves {position : Nat} {lastLogId : LogId} :
    Moves n (Cluster.resume conf n position lastLogId).node := by
  unfold Cluster.resume
  cases hthread : n.waiting[position]? with
  | none => exact .of_eq rfl rfl rfl rfl
  | some thread =>
    have hsub : pending { n with waiting := n.waiting.eraseIdx position } ⊆ pending n :=
      fun t ht => ((n.waiting.eraseIdx_sublist position).filterMap _).subset ht
    cases thread with
    | prevote request =>
      exact .stays rfl rfl rfl hsub fun h => pending_eraseIdx hthread (by simp) h
    | requestVote request =>
      have hwaits := fun h => pending_eraseIdx hthread (by simp) (h : n.currentTerm ∈ pending n)
      show Moves n (ElectionNode.castVote _ request lastLogId).node
      unfold ElectionNode.castVote
      split_ifs with hterm hok
      · exact .stays rfl rfl rfl hsub hwaits
      · have hlow : ¬ n.currentTerm < request.term := by
          rw [not_not.mp hterm]
          exact lt_irrefl _
        have hsame : n.stepDown request.term = _ := stepDown_not_higher hlow
        exact .stays (by simp only [answerRequestVote, hsame])
          (by simp only [answerRequestVote, hsame]) rfl hsub hwaits
      · exact .stays rfl rfl rfl hsub hwaits
    | electSelf oldTerm =>
      show Moves n (ElectionNode.sendVoteRequests conf _ oldTerm lastLogId).node
      unfold ElectionNode.sendVoteRequests
      split_ifs with hterm
      · refine .stays rfl rfl rfl hsub fun h => pending_eraseIdx hthread ?_ h
        rintro heq
        cases heq
        exact hterm rfl
      · exact .startsSaving rfl rfl hsub

private theorem handle_outcome {effect : Effect} (hsaving : n.saving = false)
    (h : handle conf flag n event = some effect) : Outcome conf flag n event effect.node := by
  cases event with
  | electionTimeout lastLogId =>
    cases h
    refine .moves ?_ (fun _ ht => by cases ht) id
    unfold ElectionNode.handleElectionTimeout ElectionNode.prevote
    split_ifs <;> exact .of_eq rfl rfl rfl rfl
  | voteTimeout lastLogId => exact handleVoteTimeout_outcome h
  | prevote request =>
    cases h
    refine .moves ?_ (fun _ ht => by cases ht) id
    unfold ElectionNode.handlePrevote
    split_ifs
    · exact .of_eq rfl rfl rfl rfl
    · exact .of_eq rfl rfl rfl (by simp [pending, ElectionNode.wait, ElectionNode.quiet])
  | prevoteResponse peer term response => exact handlePreVoteResponse_outcome hsaving h
  | requestVote request =>
    cases h
    exact handleRequestVote_outcome hsaving
  | requestVoteResponse peer term response =>
    cases h
    exact handleRequestVoteResponse_outcome hsaving
  | appendEntries term serverId =>
    cases h
    exact receiveAppendEntries_outcome hsaving
  | increaseTermTo newTerm =>
    cases h
    show Outcome conf flag n _ (n.increaseTermTo newTerm)
    unfold ElectionNode.increaseTermTo
    split_ifs with hlow
    · refine .moves (.of_eq rfl rfl rfl rfl) (fun t ht => ?_) id
      cases ht
      exact not_lt.mpr hlow
    · exact outcome_stepDown _ hsaving rfl id rfl rfl rfl rfl
  | stepdownTimeout =>
    cases h
    refine .moves ?_ (fun _ ht => by cases ht) id
    show Moves n n.handleStepdownTimeout
    unfold ElectionNode.handleStepdownTimeout
    have hsame : n.stepDown n.currentTerm = _ := stepDown_not_higher (lt_irrefl _)
    split_ifs
    · exact .of_eq (by rw [hsame]) (by rw [hsame]) rfl rfl
    · exact .of_eq rfl rfl rfl rfl
  | resume position lastLogId =>
    cases h
    exact .moves resume_moves (fun _ ht => by cases ht) id
  | saveVote =>
    cases h
    exact .moves (.of_eq rfl rfl rfl rfl) (fun _ ht => by cases ht) id

/-- All that a step does: with the mutex taken by `elect_self`, at most its end. -/
theorem step_cases (h : step conf flag n event = some n') :
    n.saving = true ∧ Moves n n' ∨ n.saving = false ∧ Outcome conf flag n event n' := by
  cases hsaving : n.saving with
  | true =>
    refine .inl ⟨rfl, ?_⟩
    simp only [step, hsaving, if_true] at h
    cases event with
    | saveVote =>
      cases h
      refine .saves ?_ ?_ ?_
      all_goals
        unfold ElectionNode.saveVote
        dsimp only
        split_ifs
      all_goals first | rfl | exact fun _ ht => ht
    | _ =>
      cases h
      exact .of_eq rfl rfl rfl rfl
  | false =>
    simp only [step, hsaving, Bool.false_eq_true, if_false] at h
    obtain ⟨effect, heffect, rfl⟩ := Option.map_eq_some_iff.mp h
    exact .inr ⟨rfl, handle_outcome hsaving heffect⟩

private theorem electSelf_defined
    (hfits : conf.contains n.serverId = true → n.currentTerm + 1 < 2 ^ 31) :
    ∃ effect, n.electSelf conf = some effect := by
  unfold ElectionNode.electSelf
  split_ifs with hcontains hoverflow
  · exact ⟨_, rfl⟩
  · exact absurd (hfits (by simpa using hcontains)) (not_lt.mpr hoverflow)
  · exact ⟨_, rfl⟩

theorem step_defined (hfits : n.saving = false → Elects conf flag n event →
    n.currentTerm + 1 < 2 ^ 31) : ∃ n', step conf flag n event = some n' := by
  cases hsaving : n.saving with
  | true =>
    simp only [step, hsaving, if_true]
    cases event <;> exact ⟨_, rfl⟩
  | false =>
    have hhandle : ∃ effect, handle conf flag n event = some effect := by
      cases event with
      | voteTimeout lastLogId =>
        show ∃ effect, n.handleVoteTimeout conf flag lastLogId = some effect
        unfold ElectionNode.handleVoteTimeout
        split_ifs with hstate hflag
        · exact ⟨_, rfl⟩
        · exact ⟨_, rfl⟩
        · exact electSelf_defined fun hcontains =>
            hfits hsaving ⟨not_not.mp hstate, by simpa using hflag, hcontains⟩
      | prevoteResponse peer term response =>
        show ∃ effect, n.handlePreVoteResponse conf peer term response = some effect
        unfold ElectionNode.handlePreVoteResponse
        split_ifs with hstate hterm hhigher hgranted
        · exact ⟨_, rfl⟩
        · exact ⟨_, rfl⟩
        · exact ⟨_, rfl⟩
        · dsimp only
          split_ifs with hquorum
          · exact electSelf_defined fun hcontains => hfits hsaving
              ⟨not_not.mp hstate, not_not.mp hterm, not_lt.mp hhigher, hgranted, hquorum, hcontains⟩
          · exact ⟨_, rfl⟩
        · exact ⟨_, rfl⟩
      | _ => exact ⟨_, rfl⟩
    obtain ⟨effect, heffect⟩ := hhandle
    refine ⟨effect.node, ?_⟩
    simp only [step, hsaving, Bool.false_eq_true, if_false, heffect, Option.map_some]

/-- An event that starts an election passes no higher term to `step_down`. -/
theorem Elects.low (h : Elects conf flag n event) :
    ∀ term ∈ stepsDownTo n event, ¬ n.currentTerm < term := by
  cases event with
  | voteTimeout lastLogId => exact fun _ ht => by cases ht
  | prevoteResponse peer term response => exact low_prevoteResponse _ _ (not_lt.mpr h.2.2.1)
  | _ => cases h

end Handlers

section Run

variable {conf : Configuration} {flag : Bool} {n n' : ElectionNode} {event : Event}

private theorem saved_step (h : Saved n) (hfits : TermFits conf flag n event)
    (hstep : step conf flag n event = some n') : Saved n' ∧ n.currentTerm ≤ n'.currentTerm := by
  rcases step_cases hstep with ⟨hsaving, hmoves⟩ | ⟨hsaving, houtcome⟩
  · cases hmoves with
    | stays hterm hsaved hsame hwaiting hwaits => exact ⟨.inl (hsame.trans hsaving), hterm.ge⟩
    | startsSaving hterm hstarts hwaiting => exact ⟨.inl hstarts, hterm.ge⟩
    | saves hterm hsaved hwaiting => exact ⟨.inr (.inr (hterm.trans hsaved.symm)), hterm.ge⟩
  · cases houtcome with
    | stepsDown term hto heffect =>
      rcases (hfits hsaving).1 term hto heffect.higher with hsame | ⟨hcut, hpending⟩
      · have hterm := heffect.term.trans hsame
        exact ⟨.inr (.inr (hterm.trans heffect.saved.symm)), hterm ▸ heffect.higher.le⟩
      · have hterm := heffect.term.trans hcut
        exact ⟨.inr (.inl (hterm ▸ heffect.waiting ▸ hpending)), hterm.ge⟩
    | elects helects heffect =>
      refine ⟨.inr (.inl ?_), ?_⟩
      · rw [heffect.term, heffect.waiting]
        exact List.mem_append_right _ (List.mem_singleton_self _)
      · rw [heffect.term]
        exact Int.le_add_one (le_refl _)
    | moves heffect hlow helects =>
      cases heffect with
      | stays hterm hsaved hsame hwaiting hwaits =>
        refine ⟨?_, hterm.ge⟩
        rcases h with htrue | hpending | heq
        · exact .inl (hsame.trans htrue)
        · exact .inr (.inl (hterm ▸ hwaits hpending))
        · exact .inr (.inr (hterm.trans (heq.trans hsaved.symm)))
      | startsSaving hterm hstarts hwaiting => exact ⟨.inl hstarts, hterm.ge⟩
      | saves hterm hsaved hwaiting => exact ⟨.inr (.inr (hterm.trans hsaved.symm)), hterm.ge⟩

def Behind (n : ElectionNode) : Prop := ∀ oldTerm ∈ pending n, oldTerm ≤ n.currentTerm

private theorem behind_step (h : Behind n) (hstep : step conf flag n event = some n')
    (hgrows : n.currentTerm ≤ n'.currentTerm) : Behind n' := by
  have hkept : pending n' ⊆ pending n → Behind n' := fun hwaiting oldTerm hold =>
    (h oldTerm (hwaiting hold)).trans hgrows
  have hmoves : Moves n n' → Behind n' := by
    intro hmoves
    cases hmoves with
    | stays hterm hsaved hsame hwaiting hwaits => exact hkept hwaiting
    | startsSaving hterm hstarts hwaiting => exact hkept hwaiting
    | saves hterm hsaved hwaiting => exact hkept hwaiting
  rcases step_cases hstep with ⟨hsaving, heffect⟩ | ⟨hsaving, houtcome⟩
  · exact hmoves heffect
  · cases houtcome with
    | stepsDown term hto heffect => exact hkept fun _ ht => heffect.waiting ▸ ht
    | elects helects heffect =>
      intro oldTerm hold
      rw [heffect.waiting] at hold
      rcases List.mem_append.mp hold with hold | hlast
      · exact (h oldTerm hold).trans hgrows
      · rw [List.mem_singleton.mp hlast, heffect.term]
    | moves heffect hlow helects => exact hmoves heffect

private theorem termFits_of_saved (hbehind : Behind n) (hstep : step conf flag n event = some n')
    (hgrows : n.currentTerm ≤ n'.currentTerm) (hsaved : Saved n') : TermFits conf flag n event := by
  intro hsaving
  rcases step_cases hstep with ⟨htrue, -⟩ | ⟨-, houtcome⟩
  · rw [hsaving] at htrue
    cases htrue
  · cases houtcome with
    | stepsDown term hto heffect =>
      refine ⟨fun t ht hhigher => ?_, fun helects => ?_⟩
      · rw [hto] at ht
        cases ht
        rcases hsaved with htrue | hpending | heq
        · rw [heffect.saving] at htrue
          cases htrue
        · rw [heffect.waiting] at hpending
          have hcut := le_antisymm (hbehind _ hpending) hgrows
          exact .inr ⟨heffect.term.symm.trans hcut, hcut ▸ hpending⟩
        · exact .inl (heffect.term.symm.trans (heq.trans heffect.saved))
      · exact absurd heffect.higher (helects.low term hto)
    | elects helects heffect =>
      exact ⟨fun t ht hhigher => absurd hhigher (helects.low t ht), fun _ => heffect.fits⟩
    | moves heffect hlow helects =>
      exact ⟨fun t ht hhigher => absurd hhigher (hlow t ht), fun he => absurd he helects⟩

variable {serverId : PeerId} {metaStorage : MetaStorage} {events : List Event}

private theorem saved_boot (h : toInt32 metaStorage.term = metaStorage.term) :
    Saved (.boot serverId metaStorage) :=
  .inr (.inr h)

private theorem termsGrow_of_guarded (hboot : toInt32 metaStorage.term = metaStorage.term)
    (hguard : Guarded (step conf flag) (TermFits conf flag) (.boot serverId metaStorage) events) :
    TermsGrow conf flag serverId metaStorage events := by
  rintro pre post n rfl hrun
  have hsaved : Saved n := invariant_of_step
    (fun s a t hs hfits hstep => (saved_step hs hfits hstep).1) (saved_boot hboot)
    (guarded_append_left hguard) hrun
  refine ⟨hsaved, fun event hevent => ?_⟩
  cases post with
  | nil => cases hevent
  | cons next rest =>
    cases hevent
    have hfits := (guarded_append_right hguard hrun).1
    obtain ⟨n', hn'⟩ := step_defined fun hsaving helects => (hfits hsaving).2 helects
    exact ⟨n', hn', (saved_step hsaved hfits hn').2⟩

private theorem behind_of_termsGrow (hgrow : TermsGrow conf flag serverId metaStorage events)
    {pre post : List Event} (hsplit : events = pre ++ post)
    (hrun : runEvents (step conf flag) (.boot serverId metaStorage) pre = some n) : Behind n := by
  induction pre using List.reverseRecOn generalizing post n with
  | nil =>
    cases hrun
    exact fun _ hold => by cases hold
  | append_singleton pre event ih =>
    obtain ⟨m, hm, hmn⟩ := runEvents_append_eq_some.mp hrun
    obtain ⟨t, ht, htn⟩ := runEvents_cons_eq_some.mp hmn
    cases htn
    have hsplit' : events = pre ++ event :: post := by simp [hsplit]
    obtain ⟨n', hn', hgrows⟩ := (hgrow pre (event :: post) m hsplit' hm).2 event rfl
    rw [ht] at hn'
    cases hn'
    exact behind_step (ih hsplit' hm) ht hgrows

private theorem guarded_of_termsGrow (hgrow : TermsGrow conf flag serverId metaStorage events) :
    toInt32 metaStorage.term = metaStorage.term ∧
      Guarded (step conf flag) (TermFits conf flag) (.boot serverId metaStorage) events := by
  constructor
  · rcases (hgrow [] events _ rfl rfl).1 with htrue | hpending | heq
    · cases htrue
    · cases hpending
    · exact heq
  · rw [guarded_iff]
    rintro pre event post n hsplit hrun
    obtain ⟨n', hn', hgrows⟩ := (hgrow pre (event :: post) n hsplit hrun).2 event rfl
    have hnext := hgrow (pre ++ [event]) post n' (by simp [hsplit])
      (runEvents_append_eq_some.mpr ⟨n, hrun, runEvents_cons_eq_some.mpr ⟨n', hn', rfl⟩⟩)
    exact termFits_of_saved (behind_of_termsGrow hgrow hsplit hrun) hn' hgrows hnext.1

end Run

/-- The term never falls and is the saved one exactly in the runs in which every term that the
node moves to fits into 32 bits, up to a cut that leaves the term as it is. -/
theorem termsGrow_iff (conf : Configuration) (stepDownWhenVoteTimedout : Bool) (serverId : PeerId)
    (metaStorage : MetaStorage) (events : List Event) :
    TermsGrow conf stepDownWhenVoteTimedout serverId metaStorage events ↔
      toInt32 metaStorage.term = metaStorage.term ∧
        Guarded (step conf stepDownWhenVoteTimedout) (TermFits conf stepDownWhenVoteTimedout)
          (.boot serverId metaStorage) events :=
  ⟨guarded_of_termsGrow, fun h => termsGrow_of_guarded h.1 h.2⟩

private def group : Configuration := ⟨[⟨1, 8000, 0⟩, ⟨2, 8001, 0⟩], by decide⟩

/-- A vote request of the first term of 33 bits: the term falls to the least one. -/
theorem not_termsGrow_requestVote :
    ¬ TermsGrow group false ⟨2, 8001, 0⟩ ⟨1, .empty⟩
      [.requestVote ⟨⟨1, 8000, 0⟩, ⟨2, 8001, 0⟩, 2 ^ 31, 1, 1⟩] := by
  intro hgrow
  have hfits := (guarded_of_termsGrow hgrow).2.1 rfl
  rcases hfits.1 (2 ^ 31) rfl (by decide) with hsame | ⟨hcut, hpending⟩
  · exact absurd hsame (by decide)
  · cases hpending

end HitConsistency.Election.TermGrowth
