/- GID: HitConsistency/Log/ArrivalOrder
   digest: The state of the log after out-of-order appends is a function of the arrived set. -/

import HitConsistency.Log.OutOfOrderAppend

set_option autoImplicit false
set_option relaxedAutoImplicit false

namespace HitConsistency.Log.ArrivalOrder

open HitConsistency.Base.GuardedRuns
open HitConsistency.Base.IndexedDeque
open HitConsistency.Base.SlidingBitmap
open HitConsistency.Log.Entry
open HitConsistency.Log.MemoryLog
open HitConsistency.Log.OutOfOrderAppend

/-- Appends of consecutive indexes, with the disk thread at work in between. -/
inductive Event
  | append (first : Int) (count : Nat)
  | diskWrite
  | diskBatchEnd
  deriving DecidableEq

def step (source : Int → LogEntry) (m : LogManager Unit) : Event → Option (LogManager Unit)
  | .append first count => (m.appendEntries (batch source first count) () true).map Prod.fst
  | .diskWrite => some ((m.diskWrite.map Prod.fst).getD m)
  | .diskBatchEnd => some m.diskBatchEnd

/-- A batch is non-empty, starts at 1 or later, and does not lie further below the
largest index than the bitmap is wide. -/
def InWindow (m : LogManager Unit) : Event → Prop
  | .append first count =>
      1 ≤ first ∧ 0 < count ∧ max m.maxLogIndex (first + count - 1) - first ≤ 1023
  | _ => True

instance inWindowDecidable (m : LogManager Unit) : ∀ event, Decidable (InWindow m event)
  | .append _ _ => inferInstanceAs (Decidable (_ ∧ _))
  | .diskWrite => inferInstanceAs (Decidable True)
  | .diskBatchEnd => inferInstanceAs (Decidable True)

def Received (events : List Event) (i : Int) : Prop :=
  ∃ (first : Int) (count : Nat), Event.append first count ∈ events ∧ first ≤ i ∧ i < first + count

/-- The state that belongs to a set of arrived indexes. -/
structure Canonical (source : Int → LogEntry) (got : Int → Prop) (m : LogManager Unit) :
    Prop where
  top : (m.maxLogIndex = 0 ∧ ∀ i, ¬ got i) ∨ IsGreatest {i | got i} m.maxLogIndex
  last : IsGreatest {n | 0 ≤ n ∧ ∀ i, 1 ≤ i → i ≤ n → got i} m.lastLogIndex
  length : (m.logsInMemory.length : Int) = m.maxLogIndex
  slotGot : ∀ i, got i → item m.logsInMemory (i - 1) = some (some (source i))
  slotNull : ∀ i, 1 ≤ i → i ≤ m.maxLogIndex → ¬ got i → item m.logsInMemory (i - 1) = some none
  bits : ∀ j : Nat, j < 1024 → (m.dependencyBitmap.getLsbD j = true ↔ got (m.maxLogIndex - j))

section

variable {source : Int → LogEntry} {term : Int} {got : Int → Prop} {m : LogManager Unit}

private theorem canonical_of_mirrors (h : Mirrors source term got m)
    (happlied : m.appliedId = .zero) :
    Canonical source got m := by
  have hlen := h.memory.length_le
  have hfirst : m.firstInMemory = 1 := by
    rcases h.applied with hone | ⟨-, hle⟩
    · exact hone
    · rw [happlied] at hle
      simp only [LogId.zero, Memory.firstInMemory] at hle ⊢
      omega
  have hfull : (m.logsInMemory.length : Int) = m.maxLogIndex := by
    unfold Memory.firstInMemory at hfirst
    omega
  refine ⟨?_, ⟨⟨h.lastNonneg, h.lastGot⟩, ?_⟩, hfull, ?_, ?_, ?_⟩
  · rcases h.top with hzero | hgot
    · refine .inl ⟨hzero, fun i hi => ?_⟩
      have := h.range i hi
      omega
    · exact .inr ⟨hgot, fun i hi => (h.range i hi).2⟩
  · rintro n ⟨hn, hall⟩
    by_contra hlt
    have := h.lastNonneg
    exact h.lastEnd (hall _ (by omega) (by omega))
  · intro i hi
    have hr := h.range i hi
    have := h.memory.slotGot i hi (by omega) hr.2
    rwa [hfirst] at this
  · intro i hlo hhi hnot
    obtain ⟨slot, hslot⟩ := exists_item (q := m.logsInMemory) (d := i - 1) (by omega) (by omega)
    cases slot with
    | none => exact hslot
    | some entry =>
      have := h.memory.slotWant i entry (by rw [hfirst]; exact hslot)
      exact absurd this.2 hnot
  · intro j hj
    have hbit : present m.dependencyBitmap m.maxLogIndex (m.maxLogIndex - j) =
        m.dependencyBitmap.getLsbD j := by
      have hle : m.maxLogIndex - (j : Int) ≤ m.maxLogIndex := by omega
      simp [present, hle]
    rw [← hbit]
    exact ⟨h.memory.bitWant _ (by omega), fun hgot => h.memory.bitGot _ hgot (by omega) (by omega)⟩

private theorem mirrors_step (hsource : OneTerm source term) (h : Mirrors source term got m)
    (happlied : m.appliedId = .zero) {event : Event} (hwin : InWindow m event) :
    ∃ m', step source m event = some m' ∧ m'.appliedId = .zero ∧
      Mirrors source term (fun i => got i ∨ Received [event] i) m' := by
  have plain : (∀ i, ¬ Received [event] i) → ∀ m' : LogManager Unit,
      Mirrors source term got m' → Mirrors source term (fun i => got i ∨ Received [event] i) m' := by
    intro hnone m' hm'
    have : (fun i => got i ∨ Received [event] i) = got := by
      funext i
      simp [hnone i]
    rwa [this]
  cases event with
  | append first count =>
    obtain ⟨hfirst, hcount, hnear⟩ := hwin
    obtain ⟨m', hrun, hm', -, hsame, -⟩ := mirrors_append h hsource hfirst hcount
      (by rw [happlied]; show (0 : Int) < first; omega) (by omega) ()
    refine ⟨m', by simp [step, hrun], hsame.trans happlied, ?_⟩
    have : (fun i => got i ∨ Received [Event.append first count] i) =
        WithBatch got first count := by
      funext i
      simp [WithBatch, Received]
    rwa [this]
  | diskWrite =>
    have hnone : ∀ i, ¬ Received [Event.diskWrite] i := by simp [Received]
    cases hw : m.diskWrite with
    | none => exact ⟨m, by simp [step, hw], happlied, plain hnone m h⟩
    | some r =>
      obtain ⟨m', task, status⟩ := r
      obtain ⟨hm', hsame, -⟩ := mirrors_diskWrite h hsource hw
      exact ⟨m', by simp [step, hw], hsame.trans happlied, plain hnone m' hm'⟩
  | diskBatchEnd =>
    have hnone : ∀ i, ¬ Received [Event.diskBatchEnd] i := by simp [Received]
    exact ⟨m.diskBatchEnd, rfl, (setDiskId_settings m m.lastId).1.trans happlied,
      plain hnone _ (mirrors_diskBatchEnd h hsource)⟩

private theorem mirrors_run (hsource : OneTerm source term) (h : Mirrors source term got m)
    (happlied : m.appliedId = .zero) {events : List Event}
    (hg : Guarded (step source) InWindow m events) :
    ∃ m', runEvents (step source) m events = some m' ∧ m'.appliedId = .zero ∧
      Mirrors source term (fun i => got i ∨ Received events i) m' := by
  induction events generalizing m got with
  | nil =>
    refine ⟨m, rfl, happlied, ?_⟩
    have : (fun i => got i ∨ Received [] i) = got := by
      funext i
      simp [Received]
    rwa [this]
  | cons event events ih =>
    obtain ⟨mid, hstep, hmidApplied, hmid⟩ := mirrors_step hsource h happlied hg.1
    obtain ⟨m', hrun, hend, hm'⟩ := ih hmid hmidApplied (hg.2 mid hstep)
    refine ⟨m', runEvents_cons_eq_some.mpr ⟨mid, hstep, hrun⟩, hend, ?_⟩
    have : (fun i => got i ∨ Received (event :: events) i) =
        fun i => (got i ∨ Received [event] i) ∨ Received events i := by
      funext i
      simp only [Received, List.mem_cons, List.not_mem_nil, or_false, eq_iff_iff]
      grind
    rwa [this]

private theorem canonical_unique {m' : LogManager Unit} (h : Canonical source got m)
    (h' : Canonical source got m') :
    m'.toMemory = m.toMemory ∧ m'.lastLogIndex = m.lastLogIndex := by
  have hmax : m'.maxLogIndex = m.maxLogIndex := by
    rcases h.top with ⟨hz, hno⟩ | hgreat
    · rcases h'.top with ⟨hz', -⟩ | hgreat'
      · rw [hz, hz']
      · exact absurd hgreat'.1 (hno _)
    · rcases h'.top with ⟨-, hno⟩ | hgreat'
      · exact absurd hgreat.1 (hno _)
      · exact hgreat'.unique hgreat
  have hbits : m'.dependencyBitmap = m.dependencyBitmap := by
    apply BitVec.eq_of_getLsbD_eq
    intro j hj
    rw [Bool.eq_iff_iff, h'.bits j hj, h.bits j hj, hmax]
  have hslots : m'.logsInMemory = m.logsInMemory := by
    have hlen := h.length
    have hlen' := h'.length
    apply List.ext_getElem?
    intro k
    have hitem : ∀ logs : List (Option LogEntry), item logs ((k + 1 : Int) - 1) = logs[k]? := by
      intro logs
      have hk : ((k : Int) + 1 - 1) = k := by omega
      simp [item, hk]
    by_cases hk : (k + 1 : Int) ≤ m.maxLogIndex
    · rw [← hitem m'.logsInMemory, ← hitem m.logsInMemory]
      by_cases hgot : got (k + 1)
      · rw [h'.slotGot _ hgot, h.slotGot _ hgot]
      · rw [h'.slotNull _ (by omega) (by omega) hgot, h.slotNull _ (by omega) hk hgot]
    · rw [List.getElem?_eq_none (by omega), List.getElem?_eq_none (by omega)]
  refine ⟨?_, h'.last.unique h.last⟩
  show m'.toMemory = m.toMemory
  cases hm : m.toMemory with
  | mk top bitmap logs =>
    cases hm' : m'.toMemory with
    | mk top' bitmap' logs' =>
      simp only [hm, hm'] at hmax hbits hslots
      rw [hmax, hbits, hslots]

end

/-- Every sequence of out-of-order batches within the window runs, and ends in the
state that belongs to the arrived indexes; another sequence with the same indexes
ends in the same state. -/
theorem append_order_insensitive (source : Int → LogEntry) (term lookBack : Int)
    (hterm : 0 ≤ term) (hsource : OneTerm source term) (events : List Event)
    (hg : Guarded (step source) InWindow (.fresh lookBack) events) :
    ∃ m, runEvents (step source) (.fresh lookBack) events = some m ∧
      Canonical source (Received events) m ∧
      ∀ events', Guarded (step source) InWindow (.fresh lookBack) events' →
        (∀ i, Received events' i ↔ Received events i) →
        ∃ m', runEvents (step source) (.fresh lookBack) events' = some m' ∧
          m'.toMemory = m.toMemory ∧ m'.lastLogIndex = m.lastLogIndex := by
  have hrun : ∀ events, Guarded (step source) InWindow (.fresh lookBack) events →
      ∃ m, runEvents (step source) (.fresh lookBack) events = some m ∧
        Canonical source (Received events) m := by
    intro events hg
    obtain ⟨m, hm, happlied, hmirror⟩ :=
      mirrors_run hsource (mirrors_fresh source hterm lookBack) rfl hg
    have hmirror' : Mirrors source term (Received events) m := by simpa using hmirror
    exact ⟨m, hm, canonical_of_mirrors hmirror' happlied⟩
  obtain ⟨m, hm, hcanon⟩ := hrun events hg
  refine ⟨m, hm, hcanon, fun events' hg' hsame => ?_⟩
  obtain ⟨m', hm', hcanon'⟩ := hrun events' hg'
  have hset : Received events' = Received events := funext fun i => propext (hsame i)
  rw [hset] at hcanon'
  exact ⟨m', hm', canonical_unique hcanon hcanon'⟩

private def sampleSource (i : Int) : LogEntry := ⟨.data, ⟨i, 1⟩, 0, none, none, []⟩

private def sampleArrivals : List Event :=
  [.append 3 2, .diskWrite, .append 1 1, .diskBatchEnd, .append 2 2]

theorem append_order_insensitive_sample :
    ∃ m, runEvents (step sampleSource) (.fresh 8) sampleArrivals = some m ∧
      Canonical sampleSource (Received sampleArrivals) m := by
  obtain ⟨m, hm, hcanon, -⟩ := append_order_insensitive sampleSource 1 8 (by decide)
    (fun _ => rfl) sampleArrivals (by decide)
  exact ⟨m, hm, hcanon⟩

end HitConsistency.Log.ArrivalOrder
