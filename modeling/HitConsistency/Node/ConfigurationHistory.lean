/- GID: HitConsistency/Node/ConfigurationHistory
   digest: The configuration of a node, the history of configurations, and the log. -/

import HitConsistency.Log.PendingLog
import HitConsistency.Node.AppendHandler

set_option autoImplicit false
set_option relaxedAutoImplicit false

/-!
The log is what the storage will hold once the disk thread has caught up. The history of
configurations is edited beside it: an append adds to it, a truncation cuts it, and the
node copies its last entry, or the empty configuration of a snapshot that there never is.
-/

namespace HitConsistency.Node.ConfigurationHistory

open HitConsistency.Base.GuardedRuns
open HitConsistency.Group.Peers
open HitConsistency.Log.Entry
open HitConsistency.Log.KeptEntries (Has)
open HitConsistency.Log.MemoryLog
open HitConsistency.Log.PendingLog
  (getEntry_appendEntries getEntry_appendEntries_of_not_has)
open HitConsistency.Node.AppendHandler
open HitConsistency.Node.AppendHandler.Follower

section Log

variable {γ : Type}

/-- What a task of the disk thread leaves of the log; behind an error no batch is written. -/
def runTask (hasError : Bool) (storage : LogStorage) : DiskTask γ → LogStorage
  | .append closure => if hasError then storage else storage.appendEntries closure.entries
  | .lastLogId _ => storage
  | .truncateSuffix lastIndexKept _ => storage.truncateSuffix lastIndexKept

def promised (m : LogManager γ) : LogStorage := m.diskQueue.foldl (runTask m.hasError) m.storage

def Configured (log : LogStorage) (entry : LogEntry) : Prop :=
  log.getEntry entry.id.index = some entry ∧ entry.type = .configuration

/-- The batch passes the conflict check: `mid` is the manager behind it, `stored` is what is
left to store. -/
def Stores (m : LogManager γ) (entries : List LogEntry) (ooRep : Bool) (mid : LogManager γ)
    (stored : List LogEntry) : Prop :=
  m.hasError = false ∧ ∃ front back, entries.head? = some front ∧ entries.getLast? = some back ∧
    m.checkAndResolveConflict front back entries ooRep = some (.proceed mid stored)

/-- The history lists the configuration entries of the log. -/
structure Tracks (m : LogManager γ) : Prop where
  ascending : m.configManager.configurations.Pairwise fun a b => a.id.index < b.id.index
  mem_iff : ∀ c, c ∈ m.configManager.configurations ↔
    ∃ entry, Configured (promised m) entry ∧ c = .ofEntry entry
  positive : ∀ entry, Configured (promised m) entry → 1 ≤ entry.id.index
  snapshot : m.configManager.snapshot = ⟨.zero, .none, .none⟩

end Log

/-- `_conf` as `init` sets it. -/
def initialEntry (initial : Configuration) : ConfigurationEntry := ⟨.zero, initial, .none⟩

/-- The node holds the last configuration of its log. -/
def Follows (initial : Configuration) (f : Follower) : Prop :=
  (∃ entry, Configured (promised f.log) entry ∧
      (∀ other, Configured (promised f.log) other → other.id.index ≤ entry.id.index) ∧
      f.conf = .ofEntry entry) ∨
    (∀ entry, ¬ Configured (promised f.log) entry) ∧ f.conf = initialEntry initial

/-- The request that an event has the node handle. -/
def requestOf (f : Follower) : Event → Option AppendEntriesRpc
  | .deliver rpc _ => some rpc
  | .handleCached position => f.fromCache[position]?
  | _ => none

/-- Behind every request that is handled, the node holds the last configuration of its log. -/
def ConfFollows (flags : Flags) (initial : Configuration) (f : Follower) (events : List Event) :
    Prop :=
  ∀ pre event post s t, events = pre ++ event :: post → runEvents (step flags) f pre = some s →
    (requestOf s event).isSome → s.step flags event = some t → Follows initial t

/-- A node behind `init`, with whatever log it has loaded. -/
structure Loaded (initial : Configuration) (f : Follower) : Prop where
  conf : f.conf = initialEntry initial
  tracks : Tracks f.log

/-- The request gets to `append_entries` of the log manager. -/
def Reaches (flags : Flags) (f : Follower) (rpc : AppendEntriesRpc) : Prop :=
  f.currentTerm ≤ rpc.request.term ∧
    rpc.request.serverId = (f.checkStepDown rpc.request.term rpc.request.serverId).leaderId ∧
    f.mustWait flags rpc = some false ∧ rpc.request.entries ≠ []

/-- Entries that keep the configuration entries of the log in order: none is written over by
another entry, a new one lies above all others, and the identity of the one in force is not
given away a second time. -/
structure Joins (log : LogStorage) (conf : ConfigurationEntry) (stored : List LogEntry) : Prop where
  kept : ∀ entry ∈ stored, ∀ other, Configured log other → other.id.index = entry.id.index →
    other = entry
  above : ∀ entry ∈ stored, entry.type = .configuration →
    Configured log entry ∨ ∀ other, Configured log other → other.id.index < entry.id.index
  named : ∀ entry ∈ stored, entry.type = .configuration → entry.id = conf.id →
    .ofEntry entry = conf

/-- The entries of a request as the handler reads them. -/
def entriesOf (rpc : AppendEntriesRpc) : List LogEntry :=
  parseEntries rpc.request.prevLogIndex rpc.request.entries

def InOrder (flags : Flags) (f : Follower) (event : Event) : Prop :=
  ∀ rpc ∈ requestOf f event, Reaches flags f rpc →
    0 ≤ rpc.request.prevLogIndex ∧ ∀ mid stored,
      Stores f.log (entriesOf rpc) flags.ooEnabled mid stored →
        Joins (promised mid) f.conf stored

/-- A request finds the node up to date, or brings it there; and one that truncates the log
leaves or brings a configuration entry, unless the configuration in force is the initial one
or that one is empty. -/
def KeepsConfiguration (flags : Flags) (initial : Configuration) (f : Follower) (event : Event) :
    Prop :=
  ∀ rpc ∈ requestOf f event,
    (f.conf.id = f.log.configManager.lastConfiguration.id ∨ Reaches flags f rpc) ∧
      (Reaches flags f rpc → ∀ mid stored,
        Stores f.log (entriesOf rpc) flags.ooEnabled mid stored →
          (∃ entry, Configured (promised mid) entry) ∨
            (∃ entry ∈ stored, entry.type = .configuration) ∨
            f.conf.id = .zero ∨ initial = .none)

section History

variable {cm : ConfigurationManager} {stored : List LogEntry}

/-- The loop of an append over its configuration entries. -/
def addAll (cm : ConfigurationManager) (stored : List LogEntry) : ConfigurationManager :=
  (stored.filter fun entry => entry.type = .configuration).foldl
    (fun cm entry => cm.add (.ofEntry entry)) cm

private theorem add_old {entry last : ConfigurationEntry} (hlast : last ∈ cm.configurations)
    (hascending : cm.configurations.Pairwise fun a b => a.id.index < b.id.index)
    (hle : entry.id.index ≤ last.id.index) : cm.add entry = cm := by
  unfold ConfigurationManager.add
  cases hback : cm.configurations.getLast? with
  | none =>
    rw [List.getLast?_eq_none_iff.mp hback] at hlast
    cases hlast
  | some back =>
    obtain ⟨front, hsplit⟩ := List.getLast?_eq_some_iff.mp hback
    refine if_pos (hle.trans ?_)
    rw [hsplit] at hlast hascending
    rcases List.mem_append.mp hlast with hmem | hmem
    · exact ((List.pairwise_append.mp hascending).2.2 _ hmem _ (List.mem_singleton_self _)).le
    · rw [List.mem_singleton.mp hmem]

private theorem add_new {entry : ConfigurationEntry}
    (hnew : ∀ c ∈ cm.configurations, c.id.index < entry.id.index) :
    cm.add entry = { cm with configurations := cm.configurations ++ [entry] } := by
  unfold ConfigurationManager.add
  cases hback : cm.configurations.getLast? with
  | none => rw [List.getLast?_eq_none_iff.mp hback, List.nil_append]
  | some back => exact if_neg (not_le.mpr (hnew back (List.mem_of_getLast? hback)))

private theorem addAll_spec (hstored : stored.Pairwise fun a b => a.id.index < b.id.index)
    (hascending : cm.configurations.Pairwise fun a b => a.id.index < b.id.index)
    (hjoins : ∀ entry ∈ stored, entry.type = .configuration → .ofEntry entry ∈ cm.configurations ∨
      ∀ c ∈ cm.configurations, c.id.index < entry.id.index) :
    ((addAll cm stored).configurations.Pairwise fun a b => a.id.index < b.id.index) ∧
      (∀ c, c ∈ (addAll cm stored).configurations ↔ c ∈ cm.configurations ∨
        ∃ entry ∈ stored, entry.type = .configuration ∧ c = .ofEntry entry) ∧
      (addAll cm stored).snapshot = cm.snapshot := by
  induction stored generalizing cm with
  | nil => exact ⟨hascending, fun c => by simp [addAll], rfl⟩
  | cons head rest ih =>
    obtain ⟨hhead, hrest⟩ := List.pairwise_cons.mp hstored
    have hlater := fun entry (hmem : entry ∈ rest) => hjoins entry (List.mem_cons_of_mem _ hmem)
    by_cases htype : head.type = .configuration
    · have hstep : addAll cm (head :: rest) = addAll (cm.add (.ofEntry head)) rest := by
        simp [addAll, htype]
      rw [hstep]
      rcases hjoins head List.mem_cons_self htype with hknown | hnew
      · rw [add_old hknown hascending (le_refl _)]
        obtain ⟨hpairwise, hmem, hsnapshot⟩ := ih hrest hascending hlater
        refine ⟨hpairwise, fun c => (hmem c).trans ?_, hsnapshot⟩
        constructor
        · exact Or.imp_right fun ⟨entry, hentry, hc⟩ => ⟨entry, List.mem_cons_of_mem _ hentry, hc⟩
        · rintro (hc | ⟨entry, hentry, htype', rfl⟩)
          · exact .inl hc
          · rcases List.mem_cons.mp hentry with rfl | hentry
            · exact .inl hknown
            · exact .inr ⟨entry, hentry, htype', rfl⟩
      · rw [add_new hnew]
        let grown : ConfigurationManager :=
          { cm with configurations := cm.configurations ++ [.ofEntry head] }
        have hgrown : grown.configurations.Pairwise fun a b => a.id.index < b.id.index := by
          refine List.pairwise_append.mpr ⟨hascending, List.pairwise_singleton _ _, ?_⟩
          intro c hc e he
          rw [List.mem_singleton.mp he]
          exact hnew c hc
        obtain ⟨hpairwise, hmem, hsnapshot⟩ := ih hrest hgrown fun entry hentry htype' =>
          (hlater entry hentry htype').imp (List.mem_append_left _) fun habove c hc => by
            rcases List.mem_append.mp hc with hc | hc
            · exact habove c hc
            · rw [List.mem_singleton.mp hc]
              exact hhead entry hentry
        refine ⟨hpairwise, fun c => (hmem c).trans ?_, hsnapshot⟩
        rw [List.mem_append, List.mem_singleton]
        constructor
        · rintro ((hc | rfl) | ⟨entry, hentry, hc⟩)
          · exact .inl hc
          · exact .inr ⟨head, List.mem_cons_self, htype, rfl⟩
          · exact .inr ⟨entry, List.mem_cons_of_mem _ hentry, hc⟩
        · rintro (hc | ⟨entry, hentry, htype', rfl⟩)
          · exact .inl (.inl hc)
          · rcases List.mem_cons.mp hentry with rfl | hentry
            · exact .inl (.inr rfl)
            · exact .inr ⟨entry, hentry, htype', rfl⟩
    · have hstep : addAll cm (head :: rest) = addAll cm rest := by simp [addAll, htype]
      rw [hstep]
      obtain ⟨hpairwise, hmem, hsnapshot⟩ := ih hrest hascending hlater
      refine ⟨hpairwise, fun c => (hmem c).trans (or_congr_right ?_), hsnapshot⟩
      constructor
      · exact fun ⟨entry, hentry, hc⟩ => ⟨entry, List.mem_cons_of_mem _ hentry, hc⟩
      · rintro ⟨entry, hentry, htype', rfl⟩
        rcases List.mem_cons.mp hentry with rfl | hentry
        · exact absurd htype' htype
        · exact ⟨entry, hentry, htype', rfl⟩

private theorem mem_rdropWhile {configurations : List ConfigurationEntry} (lastIndexKept : Int)
    (hascending : configurations.Pairwise fun a b => a.id.index < b.id.index)
    (c : ConfigurationEntry) :
    c ∈ configurations.rdropWhile (fun entry => lastIndexKept < entry.id.index) ↔
      c ∈ configurations ∧ c.id.index ≤ lastIndexKept := by
  induction configurations using List.reverseRecOn with
  | nil => simp
  | append_singleton front last ih =>
    obtain ⟨hfront, -, hbelow⟩ := List.pairwise_append.mp hascending
    rw [List.rdropWhile_concat]
    by_cases hlast : lastIndexKept < last.id.index
    · rw [if_pos (by simpa using hlast), ih hfront, List.mem_append]
      refine and_congr_left fun hkept => ⟨.inl, fun hmem => hmem.resolve_right fun hc => ?_⟩
      rw [List.mem_singleton.mp hc] at hkept
      exact absurd hkept (not_le.mpr hlast)
    · rw [if_neg (by simpa using hlast)]
      refine (and_iff_left_of_imp fun hmem => ?_).symm
      rcases List.mem_append.mp hmem with hmem | hmem
      · exact (hbelow c hmem last (List.mem_singleton_self _)).le.trans (not_lt.mp hlast)
      · rw [List.mem_singleton.mp hmem]
        exact not_lt.mp hlast

private theorem truncateSuffix_ascending (lastIndexKept : Int)
    (hascending : cm.configurations.Pairwise fun a b => a.id.index < b.id.index) :
    (cm.truncateSuffix lastIndexKept).configurations.Pairwise fun a b => a.id.index < b.id.index :=
  hascending.sublist (List.rdropWhile_prefix _ _).sublist

end History

section Managers

variable {γ : Type} {m m' mid : LogManager γ} {log : LogStorage} {entries stored : List LogEntry}
  {ooRep : Bool}

private theorem configured_truncate {lastIndexKept : Int} {entry : LogEntry} :
    Configured (log.truncateSuffix lastIndexKept) entry ↔
      Configured log entry ∧ entry.id.index ≤ lastIndexKept := by
  unfold Configured LogStorage.truncateSuffix
  dsimp only
  split_ifs with hle
  · exact (and_iff_left hle).symm
  · exact iff_of_false (fun h => by cases h.1) fun h => hle h.2

private theorem getEntry_appendEntries_ascending {entry : LogEntry} (hmem : entry ∈ stored)
    (hstored : stored.Pairwise fun a b => a.id.index < b.id.index) :
    (log.appendEntries stored).getEntry entry.id.index = some entry := by
  induction stored generalizing log with
  | nil => cases hmem
  | cons head rest ih =>
    obtain ⟨hhead, hrest⟩ := List.pairwise_cons.mp hstored
    show ((log.appendEntry head).appendEntries rest).getEntry _ = _
    rcases List.mem_cons.mp hmem with rfl | hmem
    · have hnot : ¬ Has rest entry.id.index := by
        rintro ⟨other, hother, hindex⟩
        exact absurd hindex (hhead other hother).ne'
      rw [getEntry_appendEntries_of_not_has hnot, LogStorage.getEntry_appendEntry, if_pos rfl]
    · exact ih hmem hrest

private theorem configured_append {conf : ConfigurationEntry} {entry : LogEntry}
    (hstored : stored.Pairwise fun a b => a.id.index < b.id.index)
    (hjoins : Joins log conf stored) :
    Configured (log.appendEntries stored) entry ↔
      Configured log entry ∨ entry ∈ stored ∧ entry.type = .configuration := by
  constructor
  · rintro ⟨hget, htype⟩
    rcases getEntry_appendEntries hget with ⟨hmem, -⟩ | ⟨-, hold⟩
    · exact .inr ⟨hmem, htype⟩
    · exact .inl ⟨hold, htype⟩
  · rintro (hold | ⟨hmem, htype⟩)
    · by_cases hhas : Has stored entry.id.index
      · obtain ⟨other, hother, hindex⟩ := hhas
        have hsame := hjoins.kept other hother entry hold hindex.symm
        exact ⟨getEntry_appendEntries_ascending (hsame ▸ hother) hstored, hold.2⟩
      · exact ⟨(getEntry_appendEntries_of_not_has hhas).trans hold.1, hold.2⟩
    · exact ⟨getEntry_appendEntries_ascending hmem hstored, htype⟩

private theorem promised_push {task : DiskTask γ} (hqueue : m'.diskQueue = m.diskQueue ++ [task])
    (hstorage : m'.storage = m.storage) (herror : m'.hasError = m.hasError) :
    promised m' = runTask m.hasError (promised m) task := by
  unfold promised
  rw [hqueue, hstorage, herror, List.foldl_append]
  rfl

private theorem promised_same (hqueue : m'.diskQueue = m.diskQueue)
    (hstorage : m'.storage = m.storage)
    (herror : m'.hasError = m.hasError) : promised m' = promised m := by
  unfold promised
  rw [hqueue, hstorage, herror]

private theorem tracks_same (h : Tracks m) (hpromised : promised m' = promised m)
    (hmanager : m'.configManager = m.configManager) : Tracks m' where
  ascending := hmanager ▸ h.ascending
  mem_iff := by
    rw [hmanager, hpromised]
    exact h.mem_iff
  positive := hpromised ▸ h.positive
  snapshot := hmanager ▸ h.snapshot

/-- What the conflict check does to the history and to the disk queue. -/
inductive Cut (m mid : LogManager γ) : Prop
  | none (manager : mid.configManager = m.configManager) (queue : mid.diskQueue = m.diskQueue)
  | suffix (lastIndexKept lastTermKept : Int)
      (manager : mid.configManager = m.configManager.truncateSuffix lastIndexKept)
      (queue : mid.diskQueue = m.diskQueue ++ [.truncateSuffix lastIndexKept lastTermKept])

private theorem unsafeTruncateSuffix_cut {lastIndexKept : Int}
    (h : m.unsafeTruncateSuffix lastIndexKept = some mid) :
    mid.storage = m.storage ∧ mid.hasError = m.hasError ∧ Cut m mid := by
  unfold LogManager.unsafeTruncateSuffix at h
  split_ifs at h with happlied
  · cases h
    exact ⟨rfl, rfl, .none rfl rfl⟩
  · obtain ⟨logs, -, h⟩ := Option.bind_eq_some_iff.mp h
    obtain ⟨term, -, h⟩ := Option.bind_eq_some_iff.mp h
    cases h
    exact ⟨rfl, rfl, .suffix lastIndexKept term rfl rfl⟩

private theorem resolve_cases {front back : LogEntry}
    (h : m.checkAndResolveConflict front back entries ooRep = some (.proceed mid stored)) :
    mid.storage = m.storage ∧ mid.hasError = m.hasError ∧ Cut m mid ∧
      (front.id.index ≠ 0 → stored <:+ entries) := by
  unfold LogManager.checkAndResolveConflict at h
  split_ifs at h with hzero
  · cases h
    exact ⟨rfl, rfl, .none rfl rfl, fun hne => absurd hzero hne⟩
  · cases h
  · cases h
  · cases h
    exact ⟨rfl, rfl, .none rfl rfl, fun _ => List.suffix_refl _⟩
  · obtain ⟨mem, -, heq⟩ := Option.map_eq_some_iff.mp h
    cases heq
    exact ⟨rfl, rfl, .none rfl rfl, fun _ => List.suffix_refl _⟩
  · obtain ⟨conflictingIndex, -, h⟩ := Option.bind_eq_some_iff.mp h
    have hsuffix : (if !ooRep ∨ conflictingIndex ≠ entries.length then
        entries.drop conflictingIndex else entries) <:+ entries := by
      split_ifs
      · exact List.drop_suffix _ _
      · exact List.suffix_refl _
    dsimp only at h
    generalize (if !ooRep ∨ conflictingIndex ≠ entries.length then
      entries.drop conflictingIndex else entries) = kept at h hsuffix
    split at h
    · split at h
      · obtain ⟨cut, hcut, h⟩ := Option.bind_eq_some_iff.mp h
        obtain ⟨hstorage, herror, hcut⟩ := unsafeTruncateSuffix_cut hcut
        cases h
        refine ⟨hstorage, herror, ?_, fun _ => hsuffix⟩
        cases hcut with
        | none hmanager hqueue => exact .none hmanager hqueue
        | suffix k t hmanager hqueue => exact .suffix k t hmanager hqueue
      · cases h
        exact ⟨rfl, rfl, .none rfl rfl, fun _ => hsuffix⟩
    · cases h
      exact ⟨rfl, rfl, .none rfl rfl, fun _ => hsuffix⟩

theorem Tracks.cut (h : Tracks m) (hstorage : mid.storage = m.storage)
    (herror : mid.hasError = m.hasError) (hcut : Cut m mid) :
    Tracks mid ∧ ∀ c ∈ mid.configManager.configurations, c ∈ m.configManager.configurations := by
  cases hcut with
  | none hmanager hqueue =>
    exact ⟨tracks_same h (promised_same hqueue hstorage herror) hmanager, fun c hc => hmanager ▸ hc⟩
  | suffix lastIndexKept lastTermKept hmanager hqueue =>
    have hpromised : promised mid = (promised m).truncateSuffix lastIndexKept :=
      promised_push hqueue hstorage herror
    have hmem : ∀ c, c ∈ mid.configManager.configurations ↔
        c ∈ m.configManager.configurations ∧ c.id.index ≤ lastIndexKept := by
      rw [hmanager]
      exact mem_rdropWhile lastIndexKept h.ascending
    refine ⟨⟨?_, fun c => (hmem c).trans ?_, ?_, ?_⟩, fun c hc => ((hmem c).mp hc).1⟩
    · rw [hmanager]
      exact truncateSuffix_ascending lastIndexKept h.ascending
    · rw [h.mem_iff, hpromised]
      constructor
      · rintro ⟨⟨entry, hentry, rfl⟩, hle⟩
        exact ⟨entry, configured_truncate.mpr ⟨hentry, hle⟩, rfl⟩
      · rintro ⟨entry, hentry, rfl⟩
        obtain ⟨hentry, hle⟩ := configured_truncate.mp hentry
        exact ⟨⟨entry, hentry, rfl⟩, hle⟩
    · intro entry hentry
      rw [hpromised] at hentry
      exact h.positive entry (configured_truncate.mp hentry).1
    · rw [hmanager]
      exact h.snapshot

theorem Tracks.append (h : Tracks m) {conf : ConfigurationEntry}
    (hstored : stored.Pairwise fun a b => a.id.index < b.id.index)
    (hpositive : ∀ entry ∈ stored, 1 ≤ entry.id.index) (hjoins : Joins (promised m) conf stored)
    (hpromised : promised m' = (promised m).appendEntries stored)
    (hmanager : m'.configManager = addAll m.configManager stored) :
    Tracks m' ∧ ∀ c, c ∈ m'.configManager.configurations ↔ c ∈ m.configManager.configurations ∨
      ∃ entry ∈ stored, entry.type = .configuration ∧ c = .ofEntry entry := by
  have hadds : ∀ entry ∈ stored, entry.type = .configuration →
      .ofEntry entry ∈ m.configManager.configurations ∨
        ∀ c ∈ m.configManager.configurations, c.id.index < entry.id.index := by
    intro entry hentry htype
    refine (hjoins.above entry hentry htype).imp (fun hold => ?_) fun habove c hc => ?_
    · exact (h.mem_iff _).mpr ⟨entry, hold, rfl⟩
    · obtain ⟨other, hother, rfl⟩ := (h.mem_iff c).mp hc
      exact habove other hother
  obtain ⟨hascending, hmem, hsnapshot⟩ := addAll_spec hstored h.ascending hadds
  rw [← hmanager] at hascending hmem hsnapshot
  refine ⟨⟨hascending, fun c => (hmem c).trans ?_, ?_, hsnapshot.trans h.snapshot⟩, hmem⟩
  · rw [h.mem_iff, hpromised]
    constructor
    · rintro (⟨entry, hentry, rfl⟩ | ⟨entry, hentry, htype, rfl⟩)
      · exact ⟨entry, (configured_append hstored hjoins).mpr (.inl hentry), rfl⟩
      · exact ⟨entry, (configured_append hstored hjoins).mpr (.inr ⟨hentry, htype⟩), rfl⟩
    · rintro ⟨entry, hentry, rfl⟩
      rcases (configured_append hstored hjoins).mp hentry with hold | ⟨hmem, htype⟩
      · exact .inl ⟨entry, hold, rfl⟩
      · exact .inr ⟨entry, hmem, htype, rfl⟩
  · intro entry hentry
    rw [hpromised] at hentry
    rcases (configured_append hstored hjoins).mp hentry with hold | ⟨hmem, -⟩
    · exact h.positive entry hold
    · exact hpositive entry hmem

private theorem tracks_loaded (hqueue : m.diskQueue = [])
    (hentries : entries.Pairwise fun a b => a.id.index < b.id.index)
    (hpositive : ∀ entry ∈ entries, 1 ≤ entry.id.index)
    (hstorage : m.storage = LogStorage.new.appendEntries entries)
    (hmanager : m.configManager = addAll .new entries) : Tracks m := by
  have hempty : Tracks (LogManager.fresh m.dependencyLookBack : LogManager γ) :=
    ⟨.nil, fun c => iff_of_false (fun hc => (by cases hc)) fun ⟨_, he, _⟩ => (by cases he.1),
      fun _ he => (by cases he.1), rfl⟩
  have hpromised : promised m = LogStorage.new.appendEntries entries := by
    unfold promised
    rw [hqueue, hstorage]
    rfl
  have hjoins : Joins LogStorage.new (initialEntry .none) entries := by
    refine ⟨fun _ _ _ he => (by cases he.1), fun _ _ _ => .inr fun _ he => (by cases he.1), ?_⟩
    intro entry hentry htype hid
    have hindex := congrArg LogId.index hid
    have hlow := hpositive entry hentry
    rw [hindex] at hlow
    exact absurd hlow (by decide)
  exact (hempty.append hentries hpositive hjoins hpromised hmanager).1

private theorem stores_unique {mid' : LogManager γ} {stored' : List LogEntry}
    (h : Stores m entries ooRep mid stored) (h' : Stores m entries ooRep mid' stored') :
    mid' = mid ∧ stored' = stored := by
  obtain ⟨-, front, back, hfront, hback, hresolve⟩ := h
  obtain ⟨-, front', back', hfront', hback', hresolve'⟩ := h'
  rw [hfront] at hfront'
  rw [hback] at hback'
  cases hfront'
  cases hback'
  rw [hresolve] at hresolve'
  cases hresolve'
  exact ⟨rfl, rfl⟩

theorem appendEntries_cases {done : γ} {status : Option Status}
    (h : m.appendEntries entries done ooRep = some (m', status)) :
    ((∀ mid stored, ¬ Stores m entries ooRep mid stored) ∧ promised m' = promised m ∧
        m'.configManager = m.configManager) ∨
      ∃ mid stored, Stores m entries ooRep mid stored ∧
        promised m' = (promised mid).appendEntries stored ∧
        m'.configManager = addAll mid.configManager stored := by
  have hstore : ∀ (mid : LogManager γ) stored,
      (mid.storeEntries stored done).map (·, none) = some (m', status) →
        (∃ first, promised m' = runTask mid.hasError (promised mid) (.append ⟨first, stored, done⟩)) ∧
          m'.configManager = addAll mid.configManager stored := by
    intro mid stored hstored
    obtain ⟨m'', hm, heq⟩ := Option.map_eq_some_iff.mp hstored
    cases heq
    rcases LogManager.storeEntries_cases hm with ⟨rfl, rfl⟩ | ⟨front, back, mem, last, -, -, -, -, rfl⟩
    · exact ⟨⟨0, promised_push rfl rfl rfl⟩, rfl⟩
    · exact ⟨⟨front.id.index, promised_push rfl rfl rfl⟩, rfl⟩
  unfold LogManager.appendEntries at h
  split_ifs at h with herror
  · cases h
    refine .inl ⟨fun mid stored hstores => ?_, rfl, rfl⟩
    rw [hstores.1] at herror
    cases herror
  · have hfalse : m.hasError = false := by simpa using herror
    split at h
    · rename_i front back hfront hback
      obtain ⟨resolution, hresolve, h⟩ := Option.bind_eq_some_iff.mp h
      cases resolution with
      | stop status' =>
        cases h
        refine .inl ⟨?_, rfl, rfl⟩
        rintro mid stored ⟨-, front', back', hfront', hback', hresolve'⟩
        rw [hfront] at hfront'
        rw [hback] at hback'
        cases hfront'
        cases hback'
        rw [hresolve] at hresolve'
        cases hresolve'
      | proceed mid stored =>
        obtain ⟨⟨first, hpromised⟩, hmanager⟩ := hstore mid stored h
        have hmid : mid.hasError = false := (resolve_cases hresolve).2.1.trans hfalse
        refine .inr ⟨mid, stored, ⟨hfalse, front, back, hfront, hback, hresolve⟩, ?_, hmanager⟩
        rw [hpromised, hmid]
        rfl
    · rename_i hnone
      obtain ⟨⟨first, hpromised⟩, hmanager⟩ := hstore m [] h
      refine .inl ⟨?_, ?_, hmanager⟩
      · rintro mid stored ⟨-, front, back, hfront, hback, -⟩
        exact hnone front back hfront hback
      · rw [hpromised]
        cases m.hasError <;> rfl

end Managers

section Requests

variable {flags : Flags} {initial : Configuration} {f f' : Follower} {rpc : AppendEntriesRpc}
  {event : Event}

private theorem parseEntries_ascending (index : Int) (entries : List EntryMeta) :
    ((parseEntries index entries).Pairwise fun a b => a.id.index < b.id.index) ∧
      ∀ entry ∈ parseEntries index entries, index < entry.id.index := by
  induction entries generalizing index with
  | nil => exact ⟨.nil, fun _ h => by cases h⟩
  | cons head rest ih =>
    obtain ⟨hrest, hlow⟩ := ih (index + 1)
    have hlater : ∀ entry ∈ parseEntries (index + 1) rest, index < entry.id.index :=
      fun entry h => (Int.lt_add_one_of_le (le_refl index)).trans (hlow entry h)
    by_cases htype : head.type ≠ .unknown
    · rw [parseEntries, if_pos htype]
      refine ⟨List.pairwise_cons.mpr ⟨hlow, hrest⟩, fun entry h => ?_⟩
      rcases List.mem_cons.mp h with rfl | h
      · exact Int.lt_add_one_of_le (le_refl index)
      · exact hlater entry h
    · rw [parseEntries, if_neg htype]
      exact ⟨hrest, hlater⟩

theorem handleRequest_cases {timerStarts fromAppendEntriesCache : Bool}
    (h : f.handleAppendEntriesRequest flags timerStarts fromAppendEntriesCache rpc = some f') :
    (¬ Reaches flags f rpc ∧ f'.log = f.log ∧ f'.conf = f.conf) ∨
      Reaches flags f rpc ∧ ∃ done status,
        f.log.appendEntries (entriesOf rpc) done flags.ooEnabled = some (f'.log, status) ∧
        f'.conf = if f.conf.id ≠ f'.log.configManager.lastConfiguration.id then
          f'.log.configManager.lastConfiguration else f.conf := by
  rw [Follower.handleAppendEntriesRequest] at h
  by_cases hlower : rpc.request.term < f.currentTerm
  · rw [if_pos hlower] at h
    cases h
    exact .inl ⟨fun hr => absurd hlower (not_lt.mpr hr.1), rfl, rfl⟩
  rw [if_neg hlower] at h
  dsimp only at h
  by_cases hleader : rpc.request.serverId ≠
      (f.checkStepDown rpc.request.term rpc.request.serverId).leaderId
  · rw [if_pos hleader] at h
    cases h
    exact .inl ⟨fun hr => hleader hr.2.1, rfl, rfl⟩
  rw [if_neg hleader] at h
  obtain ⟨wait, hwait, h⟩ := Option.bind_eq_some_iff.mp h
  replace hwait : f.mustWait flags rpc = some wait := hwait
  cases wait with
  | true =>
    rw [if_pos rfl] at h
    refine .inl ⟨fun hr => ?_, ?_⟩
    · have hfalse := hr.2.2.1
      rw [hwait] at hfalse
      cases hfalse
    · cases h
      unfold Follower.handleOutOfOrderAppendEntries
      split_ifs <;> exact ⟨rfl, rfl⟩
  | false =>
    rw [if_neg Bool.false_ne_true] at h
    by_cases hempty : rpc.request.entries = []
    · rw [if_pos hempty] at h
      cases h
      exact .inl ⟨fun hr => hr.2.2.2 hempty, rfl, rfl⟩
    · rw [if_neg hempty] at h
      obtain ⟨g, happend, h⟩ := Option.bind_eq_some_iff.mp h
      obtain ⟨⟨log, status⟩, hlog, rfl⟩ := Option.map_eq_some_iff.mp happend
      replace hlog : f.log.appendEntries (entriesOf rpc)
          ⟨rpc, (f.checkStepDown rpc.request.term rpc.request.serverId).currentTerm⟩
          flags.ooEnabled = some (log, status) := hlog
      have hresult : f'.log = log ∧ f'.conf = if f.conf.id ≠ log.configManager.lastConfiguration.id
          then log.configManager.lastConfiguration else f.conf := by
        cases h
        unfold Follower.checkAndSetConfiguration Follower.checkAppendEntriesCache
        split_ifs <;> exact ⟨rfl, rfl⟩
      rw [hresult.1]
      exact .inr ⟨⟨not_lt.mp hlower, not_not.mp hleader, hwait, hempty⟩, _, status, hlog, hresult.2⟩

private theorem step_other (hnone : requestOf f event = none) (h : f.step flags event = some f') :
    promised f'.log = promised f.log ∧ f'.log.configManager = f.log.configManager ∧
      f'.conf = f.conf := by
  have hclear : ∀ (m : LogManager FollowerStableClosure) id,
      promised (m.clearMemoryLogs id) = promised m := fun _ _ => rfl
  cases event with
  | deliver rpc timerStarts => cases hnone
  | handleCached position =>
    have hposition : f.fromCache[position]? = none := hnone
    simp only [Follower.step, hposition] at h
    cases h
    exact ⟨rfl, rfl, rfl⟩
  | failCached position =>
    cases h
    exact ⟨rfl, rfl, rfl⟩
  | diskWrite =>
    cases h
    unfold Follower.diskStep LogManager.diskWrite
    cases hqueue : f.log.diskQueue with
    | nil => exact ⟨rfl, rfl, rfl⟩
    | cons task rest =>
      have hpromised : promised f.log =
          rest.foldl (runTask f.log.hasError) (runTask f.log.hasError f.log.storage task) := by
        unfold promised
        rw [hqueue]
        rfl
      rw [hpromised]
      cases task with
      | append closure =>
        dsimp only [runTask]
        split_ifs with herror
        · exact ⟨rfl, rfl, rfl⟩
        · exact ⟨rfl, rfl, rfl⟩
      | lastLogId waiter => exact ⟨rfl, rfl, rfl⟩
      | truncateSuffix lastIndexKept lastTermKept => exact ⟨rfl, rfl, rfl⟩
  | diskBatchEnd =>
    cases h
    unfold LogManager.diskBatchEnd LogManager.setDiskId
    dsimp only
    split_ifs <;> exact ⟨rfl, rfl, rfl⟩
  | runClosure position dependencyBitmap lastLogIndex =>
    unfold Follower.step at h
    dsimp only at h
    split at h
    · cases h
      unfold Follower.runStableClosure Follower.checkAppendEntriesCache
      dsimp only
      split_ifs <;> exact ⟨rfl, rfl, rfl⟩
    · cases h
      exact ⟨rfl, rfl, rfl⟩
  | applied lastIndex =>
    obtain ⟨term, -, rfl⟩ := Option.map_eq_some_iff.mp h
    unfold LogManager.setAppliedId
    dsimp only
    split_ifs <;> exact ⟨rfl, rfl, rfl⟩

/-- What `_conf` should be by the history. -/
def inForce (initial : Configuration) (m : LogManager FollowerStableClosure) : ConfigurationEntry :=
  m.configManager.configurations.getLast?.getD (initialEntry initial)

/-- Between two requests the node holds the last configuration of its log, or still the one
that it has started with. -/
structure Known (initial : Configuration) (f : Follower) : Prop where
  tracks : Tracks f.log
  conf : f.conf = initialEntry initial ∨ f.conf = inForce initial f.log

private theorem same_of_index {l : List ConfigurationEntry}
    (h : l.Pairwise fun a b => a.id.index < b.id.index) {c d : ConfigurationEntry} (hc : c ∈ l)
    (hd : d ∈ l) (heq : c.id.index = d.id.index) : c = d := by
  induction l with
  | nil => cases hc
  | cons head rest ih =>
    obtain ⟨hhead, hrest⟩ := List.pairwise_cons.mp h
    rcases List.mem_cons.mp hc with rfl | hcRest
    · rcases List.mem_cons.mp hd with rfl | hdRest
      · rfl
      · exact absurd heq (hhead d hdRest).ne
    · rcases List.mem_cons.mp hd with rfl | hdRest
      · exact absurd heq (hhead c hcRest).ne'
      · exact ih hrest hcRest hdRest

private theorem getLast_spec {m : LogManager FollowerStableClosure} (h : Tracks m) :
    (m.configManager.configurations = [] ∧ (∀ entry, ¬ Configured (promised m) entry)) ∨
      ∃ entry, m.configManager.configurations.getLast? = some (.ofEntry entry) ∧
        Configured (promised m) entry ∧
        ∀ other, Configured (promised m) other → other.id.index ≤ entry.id.index := by
  cases hback : m.configManager.configurations.getLast? with
  | none =>
    have hnil := List.getLast?_eq_none_iff.mp hback
    refine .inl ⟨hnil, fun entry hentry => ?_⟩
    have hmem := (h.mem_iff (.ofEntry entry)).mpr ⟨entry, hentry, rfl⟩
    rw [hnil] at hmem
    cases hmem
  | some back =>
    obtain ⟨entry, hentry, rfl⟩ := (h.mem_iff back).mp (List.mem_of_getLast? hback)
    obtain ⟨front, hsplit⟩ := List.getLast?_eq_some_iff.mp hback
    refine .inr ⟨entry, rfl, hentry, fun other hother => ?_⟩
    have hmem := (h.mem_iff (.ofEntry other)).mpr ⟨other, hother, rfl⟩
    have hascending := h.ascending
    rw [hsplit] at hmem hascending
    rcases List.mem_append.mp hmem with hmem | hmem
    · exact ((List.pairwise_append.mp hascending).2.2 _ hmem _ (List.mem_singleton_self _)).le
    · exact (congrArg (fun c => c.id.index) (List.mem_singleton.mp hmem)).le

private theorem follows_iff (h : Tracks f.log) :
    Follows initial f ↔ f.conf = inForce initial f.log := by
  unfold inForce
  rcases getLast_spec h with ⟨hnil, hnone⟩ | ⟨entry, hback, hentry, htop⟩
  · rw [hnil]
    constructor
    · rintro (⟨entry, hentry, -⟩ | ⟨-, hconf⟩)
      · exact absurd hentry (hnone entry)
      · exact hconf
    · exact fun hconf => .inr ⟨hnone, hconf⟩
  · rw [hback, Option.getD_some]
    constructor
    · rintro (⟨other, hother, hbest, hconf⟩ | ⟨hnone, -⟩)
      · rw [hconf]
        refine same_of_index h.ascending ((h.mem_iff _).mpr ⟨other, hother, rfl⟩)
          ((h.mem_iff _).mpr ⟨entry, hentry, rfl⟩) ?_
        exact le_antisymm (htop other hother) (hbest entry hentry)
      · exact absurd hentry (hnone entry)
    · exact fun hconf => .inl ⟨entry, hentry, htop, hconf⟩

theorem Known.loaded (h : Loaded initial f) : Known initial f := ⟨h.tracks, .inl h.conf⟩

private theorem Known.same_of_id (h : Known initial f) {c : ConfigurationEntry}
    (hc : c ∈ f.log.configManager.configurations) (hid : c.id = f.conf.id) : c = f.conf := by
  obtain ⟨entry, hentry, rfl⟩ := (h.tracks.mem_iff c).mp hc
  have hpositive := h.tracks.positive entry hentry
  have hzero : f.conf ≠ initialEntry initial := by
    intro hconf
    rw [hconf] at hid
    have hindex : entry.id.index = 0 := congrArg LogId.index hid
    omega
  have hconf := h.conf.resolve_left hzero
  unfold inForce at hconf
  cases hback : f.log.configManager.configurations.getLast? with
  | none =>
    rw [hback] at hconf
    exact absurd hconf hzero
  | some back =>
    rw [hback, Option.getD_some] at hconf
    subst hconf
    exact same_of_index h.tracks.ascending hc (List.mem_of_getLast? hback) (congrArg LogId.index hid)

private theorem Known.initial_of_zero (h : Known initial f) (hzero : f.conf.id = .zero) :
    f.conf = initialEntry initial := by
  refine h.conf.elim id fun hconf => ?_
  unfold inForce at hconf
  cases hback : f.log.configManager.configurations.getLast? with
  | none => rwa [hback] at hconf
  | some back =>
    rw [hback, Option.getD_some] at hconf
    obtain ⟨entry, hentry, heq⟩ := (h.tracks.mem_iff back).mp (List.mem_of_getLast? hback)
    have hpositive := h.tracks.positive entry hentry
    rw [hconf, heq] at hzero
    have hindex : entry.id.index = 0 := congrArg LogId.index hzero
    omega

private theorem Known.inForce_iff (h : Known initial f) :
    f.conf = inForce initial f.log ↔ f.conf.id = f.log.configManager.lastConfiguration.id := by
  have hsnapshot := h.tracks.snapshot
  unfold inForce ConfigurationManager.lastConfiguration
  cases hback : f.log.configManager.configurations.getLast? with
  | none =>
    rw [Option.getD_none, Option.getD_none, hsnapshot]
    exact ⟨fun hconf => hconf ▸ rfl, h.initial_of_zero⟩
  | some back =>
    rw [Option.getD_some, Option.getD_some]
    exact ⟨fun hconf => hconf ▸ rfl, fun hid =>
      (h.same_of_id (List.mem_of_getLast? hback) hid.symm).symm⟩

private theorem checkAndSet_iff {conf conf' : ConfigurationEntry}
    {m : LogManager FollowerStableClosure}
    (hsnapshot : m.configManager.snapshot = ⟨.zero, .none, .none⟩)
    (hsame : ∀ c ∈ m.configManager.configurations, c.id = conf.id → c = conf)
    (hzero : conf.id = .zero → conf = initialEntry initial)
    (hconf : conf' = if conf.id ≠ m.configManager.lastConfiguration.id then
      m.configManager.lastConfiguration else conf) :
    conf' = inForce initial m ↔
      m.configManager.configurations ≠ [] ∨ conf.id = .zero ∨ initial = .none := by
  unfold ConfigurationManager.lastConfiguration at hconf
  unfold inForce
  cases hback : m.configManager.configurations.getLast? with
  | none =>
    have hnil := List.getLast?_eq_none_iff.mp hback
    rw [hback, Option.getD_none, hsnapshot] at hconf
    rw [Option.getD_none, or_iff_right (not_not.mpr hnil)]
    by_cases hid : conf.id = .zero
    · rw [if_neg (not_not.mpr hid)] at hconf
      exact iff_of_true (hconf.trans (hzero hid)) (.inl hid)
    · rw [if_pos hid] at hconf
      rw [hconf, or_iff_right hid]
      constructor
      · exact fun heq => (congrArg ConfigurationEntry.conf heq).symm
      · rintro rfl
        rfl
  | some back =>
    have hne : m.configManager.configurations ≠ [] := by
      rintro hnil
      rw [hnil] at hback
      cases hback
    rw [hback, Option.getD_some] at hconf
    refine iff_of_true ?_ (.inl hne)
    rw [Option.getD_some, hconf]
    split_ifs with hid
    · rfl
    · exact (hsame back (List.mem_of_getLast? hback) (not_not.mp hid).symm).symm

private theorem joins_first {conf : ConfigurationEntry} {mid : LogManager FollowerStableClosure}
    {stored : List LogEntry} (h : Tracks f.log) (hnil : f.log.configManager.configurations = [])
    (hconf : conf.id = .zero) (hlow : 0 ≤ rpc.request.prevLogIndex)
    (hstores : Stores f.log (entriesOf rpc) flags.ooEnabled mid stored) :
    Joins (promised mid) conf stored := by
  obtain ⟨-, front, back, hfront, -, hresolve⟩ := hstores
  have habove := (parseEntries_ascending rpc.request.prevLogIndex rpc.request.entries).2
  have hzero : front.id.index ≠ 0 :=
    (hlow.trans_lt (habove front (List.mem_of_head? hfront))).ne'
  obtain ⟨hstorage, herror, hcut, hsuffix⟩ := resolve_cases hresolve
  obtain ⟨hmid, hsubset⟩ := h.cut hstorage herror hcut
  have hnone : ∀ entry, ¬ Configured (promised mid) entry := by
    intro entry hentry
    have hmem := hsubset _ ((hmid.mem_iff (.ofEntry entry)).mpr ⟨entry, hentry, rfl⟩)
    rw [hnil] at hmem
    cases hmem
  refine ⟨fun _ _ other hother => absurd hother (hnone other),
    fun _ _ _ => .inr fun other hother => absurd hother (hnone other), fun entry hentry _ hid => ?_⟩
  have hindex : entry.id.index = 0 := congrArg LogId.index (hid.trans hconf)
  exact absurd hindex (hlow.trans_lt (habove entry ((hsuffix hzero).subset hentry))).ne'

private theorem step_request (hrequest : requestOf f event = some rpc)
    (h : f.step flags event = some f') :
    (¬ Reaches flags f rpc ∧ f'.log = f.log ∧ f'.conf = f.conf) ∨
      Reaches flags f rpc ∧ ∃ done status,
        f.log.appendEntries (entriesOf rpc) done flags.ooEnabled = some (f'.log, status) ∧
        f'.conf = if f.conf.id ≠ f'.log.configManager.lastConfiguration.id then
          f'.log.configManager.lastConfiguration else f.conf := by
  cases event with
  | deliver rpc' timerStarts =>
    cases hrequest
    exact handleRequest_cases h
  | handleCached position =>
    have hposition : f.fromCache[position]? = some rpc := hrequest
    simp only [Follower.step, hposition] at h
    have hcases := handleRequest_cases h
    exact hcases
  | failCached position | diskWrite | diskBatchEnd | runClosure position bitmap last
  | applied lastIndex => cases hrequest

/-- One request: the history goes on tracking the log, and the node follows its log behind the
request exactly when the request keeps a configuration. -/
theorem Known.request (h : Known initial f) (hrequest : requestOf f event = some rpc)
    (hinOrder : InOrder flags f event) (hstep : f.step flags event = some f') :
    Tracks f'.log ∧ (Follows initial f' ↔ KeepsConfiguration flags initial f event) := by
  have hkeeps : KeepsConfiguration flags initial f event ↔
      (f.conf.id = f.log.configManager.lastConfiguration.id ∨ Reaches flags f rpc) ∧
        (Reaches flags f rpc → ∀ mid stored,
          Stores f.log (entriesOf rpc) flags.ooEnabled mid stored →
            (∃ entry, Configured (promised mid) entry) ∨
              (∃ entry ∈ stored, entry.type = .configuration) ∨
              f.conf.id = .zero ∨ initial = .none) := by
    unfold KeepsConfiguration
    rw [hrequest]
    exact ⟨fun hall => hall rpc rfl, fun hone _ hmem => by cases hmem; exact hone⟩
  rw [hkeeps]
  rcases step_request hrequest hstep with ⟨hnot, hlog, hconf⟩ |
    ⟨hreaches, done, status, happend, hconf⟩
  · have htracks : Tracks f'.log := hlog ▸ h.tracks
    refine ⟨htracks, (follows_iff htracks).trans ?_⟩
    rw [hlog, hconf, h.inForce_iff, or_iff_left hnot, and_iff_left fun hr => absurd hr hnot]
  · obtain ⟨hlow, hjoins⟩ := hinOrder rpc hrequest hreaches
    obtain ⟨hascending, habove⟩ := parseEntries_ascending rpc.request.prevLogIndex
      rpc.request.entries
    rw [or_iff_right_of_imp fun _ => hreaches, and_iff_right hreaches, forall_prop_of_true hreaches]
    rcases appendEntries_cases happend with ⟨hnone, hpromised, hmanager⟩ |
      ⟨mid, stored, hstores, hpromised, hmanager⟩
    · have htracks := tracks_same h.tracks hpromised hmanager
      refine ⟨htracks, (follows_iff htracks).trans ((checkAndSet_iff htracks.snapshot ?_
        h.initial_of_zero hconf).trans (iff_of_true ?_ ?_))⟩
      · exact fun c hc hid => h.same_of_id (hmanager ▸ hc) hid
      · rw [hmanager]
        by_cases hnil : f.log.configManager.configurations = []
        · refine .inr (.inl ?_)
          rcases h.conf with hinit | hforce
          · rw [hinit]
            rfl
          · rw [hforce, inForce, hnil]
            rfl
        · exact .inl hnil
      · exact fun mid stored hstores => absurd hstores (hnone mid stored)
    · obtain ⟨-, front, back, hfront, -, hresolve⟩ := id hstores
      have hzero : front.id.index ≠ 0 :=
        (hlow.trans_lt (habove front (List.mem_of_head? hfront))).ne'
      obtain ⟨hstorage, herror, hcut, hsuffix⟩ := resolve_cases hresolve
      obtain ⟨hmid, hsubset⟩ := h.tracks.cut hstorage herror hcut
      have hjoin := hjoins mid stored hstores
      have hsub := (hsuffix hzero).sublist
      obtain ⟨htracks, hmem⟩ := hmid.append (hascending.sublist hsub)
        (fun entry hentry => hlow.trans_lt (habove entry (hsub.subset hentry))) hjoin hpromised
        hmanager
      refine ⟨htracks, (follows_iff htracks).trans ((checkAndSet_iff htracks.snapshot ?_
        h.initial_of_zero hconf).trans ?_)⟩
      · intro c hc hid
        rcases (hmem c).mp hc with hold | ⟨entry, hentry, htype, rfl⟩
        · exact h.same_of_id (hsubset c hold) hid
        · exact hjoin.named entry hentry htype hid
      · have hnonempty : f'.log.configManager.configurations ≠ [] ↔
            (∃ entry, Configured (promised mid) entry) ∨
              ∃ entry ∈ stored, entry.type = .configuration := by
          constructor
          · intro hne
            obtain ⟨c, hc⟩ := List.exists_mem_of_ne_nil _ hne
            rcases (hmem c).mp hc with hold | ⟨entry, hentry, htype, -⟩
            · obtain ⟨entry, hentry, -⟩ := (hmid.mem_iff c).mp hold
              exact .inl ⟨entry, hentry⟩
            · exact .inr ⟨entry, hentry, htype⟩
          · rintro (⟨entry, hentry⟩ | ⟨entry, hentry, htype⟩)
            · exact List.ne_nil_of_mem ((hmem _).mpr (.inl ((hmid.mem_iff _).mpr
                ⟨entry, hentry, rfl⟩)))
            · exact List.ne_nil_of_mem ((hmem _).mpr (.inr ⟨entry, hentry, htype, rfl⟩))
        rw [hnonempty, or_assoc]
        constructor
        · intro hkept mid' stored' hstores'
          obtain ⟨rfl, rfl⟩ := stores_unique hstores hstores'
          exact hkept
        · exact fun hall => hall mid stored hstores

end Requests

section Runs

variable {flags : Flags} {initial : Configuration} {f f' : Follower} {events : List Event}

theorem Known.other {event : Event} (h : Known initial f) (hnone : requestOf f event = none)
    (hstep : f.step flags event = some f') : Known initial f' := by
  obtain ⟨hpromised, hmanager, hconf⟩ := step_other hnone hstep
  refine ⟨tracks_same h.tracks hpromised hmanager, ?_⟩
  unfold inForce
  rw [hconf, hmanager]
  exact h.conf

theorem Known.step {event : Event} (h : Known initial f) (hinOrder : InOrder flags f event)
    (hstep : f.step flags event = some f')
    (hfollows : (requestOf f event).isSome → Follows initial f') : Known initial f' := by
  cases hrequest : requestOf f event with
  | none => exact h.other hrequest hstep
  | some rpc =>
    obtain ⟨htracks, -⟩ := h.request hrequest hinOrder hstep
    exact ⟨htracks, .inr ((follows_iff htracks).mp (hfollows (by rw [hrequest]; rfl)))⟩

private theorem Known.keeps_iff {event : Event} (h : Known initial f)
    (hinOrder : InOrder flags f event)
    (hstep : f.step flags event = some f') :
    ((requestOf f event).isSome → Follows initial f') ↔
      KeepsConfiguration flags initial f event := by
  cases hrequest : requestOf f event with
  | none =>
    refine iff_of_true (fun hsome => by cases hsome) fun rpc hrpc => ?_
    rw [hrequest] at hrpc
    cases hrpc
  | some rpc => exact (forall_prop_of_true rfl).trans (h.request hrequest hinOrder hstep).2

private theorem confFollows_of_known (h : Known initial f)
    (hrun : runEvents (step flags) f events = some f')
    (hinOrder : Guarded (step flags) (InOrder flags) f events) :
    ConfFollows flags initial f events ↔
      Guarded (step flags) (KeepsConfiguration flags initial) f events := by
  induction events generalizing f with
  | nil => exact iff_of_true (fun pre event post s t hsplit => by simp at hsplit) trivial
  | cons event events ih =>
    obtain ⟨mid, hstep, hrest⟩ := runEvents_cons_eq_some.mp hrun
    have hsplit : ConfFollows flags initial f (event :: events) ↔
        ((requestOf f event).isSome → Follows initial mid) ∧
          ConfFollows flags initial mid events := by
      constructor
      · intro hall
        refine ⟨fun hsome => hall [] event events f mid rfl rfl hsome hstep, ?_⟩
        rintro pre next post s t rfl hs
        exact hall (event :: pre) next post s t rfl (runEvents_cons_eq_some.mpr ⟨mid, hstep, hs⟩)
      · rintro ⟨hfirst, hlater⟩ pre next post s t heq hs hsome ht
        cases pre with
        | nil =>
          cases heq
          cases hs
          rw [hstep] at ht
          cases ht
          exact hfirst hsome
        | cons head pre =>
          cases heq
          obtain ⟨mid', hmid', hs⟩ := runEvents_cons_eq_some.mp hs
          rw [hstep] at hmid'
          cases hmid'
          exact hlater pre next post s t rfl hs hsome ht
    have hguard : Guarded (Follower.step flags) (KeepsConfiguration flags initial) f
        (event :: events) ↔ KeepsConfiguration flags initial f event ∧
          Guarded (Follower.step flags) (KeepsConfiguration flags initial) mid events := by
      refine and_congr_right fun _ => ⟨fun hall => hall mid hstep, fun hmid t ht => ?_⟩
      rw [hstep] at ht
      cases ht
      exact hmid
    rw [hsplit, hguard, ← h.keeps_iff hinOrder.1 hstep]
    exact and_congr_right fun hfollows =>
      ih (h.step hinOrder.1 hstep hfollows) hrest (hinOrder.2 mid hstep)

end Runs

/-- In a run in which configuration entries arrive in order, the node follows its log exactly
as long as every request finds it up to date or brings it there, and none takes away the last
configuration entry of the log without bringing another. -/
theorem confFollows_iff (flags : Flags) (initial : Configuration) (f f' : Follower)
    (events : List Event) (hloaded : Loaded initial f)
    (hrun : runEvents (step flags) f events = some f')
    (hinOrder : Guarded (step flags) (InOrder flags) f events) :
    ConfFollows flags initial f events ↔
      Guarded (step flags) (KeepsConfiguration flags initial) f events :=
  confFollows_of_known (.loaded hloaded) hrun hinOrder

private def members : List PeerId := [⟨1, 8000, 0⟩, ⟨2, 8001, 0⟩, ⟨3, 8002, 0⟩]

private def group : Configuration := ⟨members, by decide⟩

private def newcomer : Follower where
  serverId := ⟨3, 8002, 0⟩
  state := .follower
  currentTerm := 1
  votedId := .empty
  leaderId := .empty
  metaStorage := ⟨1, .empty⟩
  conf := initialEntry group
  log := .fresh 4
  appendEntriesCache := .new
  fromCache := []
  stable := []
  replies := []

private def inOrder : Flags := ⟨false, false, 0⟩

private def request (leader : PeerId) (term prevLogTerm prevLogIndex : Int)
    (entries : List EntryMeta) : Event :=
  .deliver ⟨0, ⟨leader, ⟨3, 8002, 0⟩, term, prevLogTerm, prevLogIndex, entries, 0, [], 0⟩⟩ true

private def data (term : Int) : EntryMeta := ⟨term, .data, none, none, 0, []⟩

private def removal : EntryMeta :=
  ⟨1, .configuration, some [⟨1, 8000, 0⟩, ⟨3, 8002, 0⟩], some members, 0, []⟩

private theorem newcomer_loaded : Loaded group newcomer :=
  ⟨rfl, tracks_loaded rfl .nil (fun _ h => by cases h) rfl rfl⟩

/-- A change of the configuration arrives, and stays. -/
theorem confFollows_iff_change :
    Guarded (step inOrder) (KeepsConfiguration inOrder group) newcomer
        [request ⟨1, 8000, 0⟩ 1 0 0 [data 1, removal]] ∧
      ConfFollows inOrder group newcomer [request ⟨1, 8000, 0⟩ 1 0 0 [data 1, removal]] := by
  have hkeeps : Guarded (step inOrder) (KeepsConfiguration inOrder group) newcomer
      [request ⟨1, 8000, 0⟩ 1 0 0 [data 1, removal]] :=
    ⟨fun _ _ => ⟨.inl rfl, fun _ _ _ _ => .inr (.inr (.inl rfl))⟩, fun _ _ => trivial⟩
  refine ⟨hkeeps,
    (confFollows_iff inOrder group newcomer _ _ newcomer_loaded rfl ?_).mpr hkeeps⟩
  refine ⟨?_, fun _ _ => trivial⟩
  intro rpc hrpc hreaches
  cases hrpc
  exact ⟨by decide, fun mid stored => joins_first newcomer_loaded.tracks rfl rfl (by decide)⟩

/-- The leader of the first term sends an entry and a change of the configuration. A leader
of the second term has another second entry: the change is undone, and `_conf` is empty. -/
theorem not_confFollows_truncated :
    ¬ ConfFollows inOrder group newcomer
      [request ⟨1, 8000, 0⟩ 1 0 0 [data 1, removal], request ⟨2, 8001, 0⟩ 2 1 1 [data 2]] := by
  intro hfollows
  obtain ⟨s, t, hs, ht, hconf⟩ : ∃ s t,
      runEvents (step inOrder) newcomer [request ⟨1, 8000, 0⟩ 1 0 0 [data 1, removal]] = some s ∧
      s.step inOrder (request ⟨2, 8001, 0⟩ 2 1 1 [data 2]) = some t ∧
      t.conf = ⟨.zero, .none, .none⟩ ∧ (promised t.log).getEntry 0 = none :=
    ⟨_, _, rfl, rfl, rfl, rfl⟩
  rcases hfollows _ _ [] s t rfl hs rfl ht with ⟨entry, hentry, -, heq⟩ | ⟨-, heq⟩
  · have hindex : entry.id.index = 0 :=
      congrArg (fun c => c.id.index) (heq.symm.trans hconf.1)
    have hget := hentry.1
    rw [hindex, hconf.2] at hget
    cases hget
  · have hempty : group = .none := congrArg ConfigurationEntry.conf (heq.symm.trans hconf.1)
    exact absurd hempty (by decide)

end HitConsistency.Node.ConfigurationHistory
