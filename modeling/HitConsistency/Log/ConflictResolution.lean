/- GID: HitConsistency/Log/ConflictResolution
   digest: When an in-order batch replaces the conflicting end of a gap-free log. -/

import HitConsistency.Log.SuffixTruncation

set_option autoImplicit false
set_option relaxedAutoImplicit false

/-!
A batch that reaches past the end of the log overwrites it slot by slot. A batch that
ends within the log truncates it at the first conflict; since the largest index stays
where it was, the slots that are left are then counted from the wrong end.
-/

namespace HitConsistency.Log.ConflictResolution

open HitConsistency.Base.GuardedRuns
open HitConsistency.Base.IndexedDeque
open HitConsistency.Log.Entry
open HitConsistency.Log.KeptEntries
open HitConsistency.Log.MemoryLog
open HitConsistency.Log.StoredBatches
open HitConsistency.Log.SuffixTruncation

variable {γ : Type}

/-- Every index up to the last one has its entry: in its slot, or on disk in front of the
memory. -/
structure GapFree (m : LogManager γ) : Prop where
  noError : m.hasError = false
  first : m.firstLogIndex = 1
  top : m.maxLogIndex = m.lastLogIndex
  start : 1 ≤ m.firstInMemory
  slots : ∀ i, m.firstInMemory ≤ i → i ≤ m.maxLogIndex →
    ∃ entry, slot m.toMemory i = some (some entry) ∧ entry.id.index = i
  stored : ∀ i, 1 ≤ i → i < m.firstInMemory →
    ∃ entry, m.storage.getEntry i = some entry ∧ entry.id.index = i

/-- The local term at the index of the entry differs, or is absent. -/
def differs (m : LogManager γ) (entry : LogEntry) : Bool :=
  decide (m.lastLogIndex < entry.id.index ∨ m.unsafeGetTerm entry.id.index ≠ some entry.id.term)

/-- Entries below the first differing one are unchanged, from it on they are those of the
batch, and nothing of the old log is seen behind the batch. -/
def Resolves (m : LogManager γ) (entries : List LogEntry) (back : LogEntry)
    (m' : LogManager γ) : Prop :=
  match entries.find? (differs m) with
  | none => (∀ i, m'.getEntry i = m.getEntry i) ∧ m'.lastLogIndex = m.lastLogIndex
  | some conflict =>
      (∀ i, i < conflict.id.index → m'.getEntry i = m.getEntry i) ∧
      (∀ entry ∈ entries, conflict.id.index ≤ entry.id.index →
        m'.getEntry entry.id.index = some (some entry)) ∧
      (conflict.id.index ≤ m.lastLogIndex → m'.lastLogIndex = back.id.index ∧
        ∀ i, back.id.index < i → m'.unsafeGetTerm i = some 0)

/-- A batch that passes the end of the log fits into the memory and into the bitmap, and
its entries below the conflict are the local ones. -/
def Overwrites (m : LogManager γ) (entries : List LogEntry) (first : Int) (back conflict : LogEntry) :
    Prop :=
  m.firstInMemory ≤ first ∧ back.id.index - first < 1024 ∧
    ∀ entry ∈ entries, entry.id.index < conflict.id.index →
      m.getEntry entry.id.index = some (some entry)

/-- A batch that does not pass the end of the log reaches it, and the bitmap reaches down
to the conflict. Either the log cannot be truncated below the applied index, and the slots
are overwritten; or as many slots are left as were given up, and the disk has the entries
that were in them. -/
def Replaces (m : LogManager γ) (back conflict : LogEntry) : Prop :=
  back.id.index = m.maxLogIndex ∧ m.maxLogIndex - conflict.id.index < 1024 ∧
    ((conflict.id.index ≤ m.appliedId.index ∧ m.firstInMemory ≤ conflict.id.index) ∨
      (m.appliedId.index < conflict.id.index ∧
        conflict.id.index - m.firstInMemory = m.maxLogIndex - conflict.id.index + 1 ∧
        ∀ i, m.firstInMemory ≤ i → i < conflict.id.index →
          m.getEntry i = some (m.storage.getEntry i)))

def Resolvable (m : LogManager γ) (entries : List LogEntry) (first : Int) (back : LogEntry) :
    Prop :=
  match entries.find? (differs m) with
  | none => True
  | some conflict =>
      if m.maxLogIndex < back.id.index then Overwrites m entries first back conflict
      else Replaces m back conflict

section Reading

variable {m : LogManager γ}

/-- The entry at the back of the memory, if any, has the largest index. -/
def BackAtTop (mem : Memory) : Prop :=
  mem.logsInMemory ≠ [] → ∃ entry, slot mem mem.maxLogIndex = some (some entry) ∧
    entry.id.index = mem.maxLogIndex

private theorem getEntry_outside (hfirst : m.firstLogIndex = 1) {i : Int}
    (hi : i < 1 ∨ m.maxLogIndex < i) : m.getEntry i = some none := by
  unfold LogManager.getEntry
  rw [if_pos (by rw [hfirst]; omega)]

private theorem getEntry_slot (hfirst : m.firstLogIndex = 1) (hback : BackAtTop m.toMemory)
    {i : Int}
    {entry : LogEntry} (hone : 1 ≤ i) (hslot : slot m.toMemory i = some (some entry)) :
    m.getEntry i = some (some entry) := by
  have hlo : m.firstInMemory ≤ i ∧ i ≤ m.maxLogIndex := by
    have hbounds := item_eq_some_bounds hslot
    unfold Memory.firstInMemory at *
    omega
  unfold LogManager.getEntry
  rw [if_neg (by rw [hfirst]; omega), getEntryFromMemory_eq hback hlo.2, if_pos hlo.1, hslot]
  rfl

private theorem getEntry_stored (hfirst : m.firstLogIndex = 1) (hback : BackAtTop m.toMemory)
    {i : Int}
    (hone : 1 ≤ i) (hhi : i ≤ m.maxLogIndex) (hlo : i < m.firstInMemory) :
    m.getEntry i = some (m.storage.getEntry i) := by
  unfold LogManager.getEntry
  rw [if_neg (by rw [hfirst]; omega), getEntryFromMemory_eq hback hhi, if_neg (by omega)]
  rfl

private theorem unsafeGetTerm_above {i : Int} (hi : m.maxLogIndex < i) :
    m.unsafeGetTerm i = some 0 := by
  unfold LogManager.unsafeGetTerm
  split
  · rfl
  · rw [if_pos (.inl hi)]

namespace GapFree

private theorem backAtTop (h : GapFree m) : BackAtTop m.toMemory := by
  intro hne
  have hpos := List.length_pos_iff.mpr hne
  have hfirst : m.firstInMemory = m.maxLogIndex - m.logsInMemory.length + 1 := rfl
  exact h.slots m.maxLogIndex (by omega) (le_refl _)

theorem read (h : GapFree m) {i : Int} (hlo : 1 ≤ i) (hhi : i ≤ m.maxLogIndex) :
    ∃ entry, m.getEntry i = some (some entry) ∧ entry.id.index = i := by
  by_cases hmem : m.firstInMemory ≤ i
  · obtain ⟨entry, hslot, hindex⟩ := h.slots i hmem hhi
    exact ⟨entry, getEntry_slot h.first h.backAtTop hlo hslot, hindex⟩
  · obtain ⟨entry, hstored, hindex⟩ := h.stored i hlo (by omega)
    refine ⟨entry, ?_, hindex⟩
    rw [getEntry_stored h.first h.backAtTop hlo hhi (by omega), hstored]

private theorem getTerm_defined (h : GapFree m) (i : Int) :
    ∃ term, m.unsafeGetTerm i = some term := by
  apply unsafeGetTerm_defined
  intro slot hslot
  have hne : m.logsInMemory ≠ [] := by
    intro hnil
    rw [hnil] at hslot
    cases hslot
  obtain ⟨entry, hback, -⟩ := h.backAtTop hne
  rw [getLast_eq_slot _ hne, hback] at hslot
  cases hslot
  rfl

end GapFree

end Reading

section Writing

variable {m mid m' : LogManager γ} {first : Int} {entries : List LogEntry} {done : γ}

private theorem advanceLast_full {mem : Memory} {n : Nat} {last : Int}
    (hfilled : ∀ i, last < i → i ≤ last + n → ∃ entry, slot mem i = some (some entry)) :
    mem.advanceLast n last = some (last + n) := by
  induction n generalizing last with
  | zero => simp [Memory.advanceLast]
  | succ n ih =>
    obtain ⟨entry, hentry⟩ := hfilled (last + 1) (by omega) (by push_cast; omega)
    have hslot : item mem.logsInMemory (last - mem.firstInMemory + 1) = some (some entry) := by
      rw [show last - mem.firstInMemory + 1 = last + 1 - mem.firstInMemory by omega]
      exact hentry
    have hrest : mem.advanceLast n (last + 1) = some (last + 1 + n) :=
      ih fun i hlo hhi => hfilled i (by omega) (by push_cast; omega)
    rw [Memory.advanceLast, hslot]
    show mem.advanceLast n (last + 1) = _
    rw [hrest]
    push_cast
    congr 1
    omega

/-- The manager behind the writes of a batch into the memory of another. -/
structure Written (entries : List LogEntry) (mid m' : LogManager γ) : Prop where
  top : m'.maxLogIndex = mid.maxLogIndex
  start : m'.firstInMemory = mid.firstInMemory
  taken : ∀ entry ∈ entries, slot m'.toMemory entry.id.index = some (some entry)
  other : ∀ i, ¬ Has entries i → slot m'.toMemory i = slot mid.toMemory i
  last : mid.lastLogIndex ≤ mid.maxLogIndex →
    (∀ i, mid.lastLogIndex < i → i ≤ mid.maxLogIndex →
      ∃ entry, slot m'.toMemory i = some (some entry)) → m'.lastLogIndex = mid.maxLogIndex
  storage : m'.storage = mid.storage
  first : m'.firstLogIndex = mid.firstLogIndex

private theorem written_of_storeEntries (hentries : Consecutive first entries) (hne : entries ≠ [])
    (hend : first + entries.length - 1 ≤ mid.maxLogIndex)
    (hrun : mid.storeEntries entries done = some m') : Written entries mid m' := by
  obtain ⟨last, hwrite, hadvance, hlast, hstorage, hfirst⟩ :=
    storeEntries_spec hentries hne hend hrun
  obtain ⟨hmax, hstart, htaken, hother, -⟩ := writeSlots_spec hentries hwrite
  refine ⟨hmax, hstart, htaken, hother, ?_, hstorage, hfirst⟩
  intro hle hfilled
  have hfull : m'.toMemory.advanceLast (mid.maxLogIndex - mid.lastLogIndex).toNat
      mid.lastLogIndex = some (mid.lastLogIndex + (mid.maxLogIndex - mid.lastLogIndex).toNat) := by
    apply advanceLast_full
    intro i hlo hhi
    exact hfilled i hlo (by omega)
  have heq := hadvance.symm.trans hfull
  rw [Option.some.injEq] at heq
  omega

namespace Written

private theorem backAtTop (h : Written entries mid m') {back : LogEntry} (hback : back ∈ entries)
    (htop : back.id.index = mid.maxLogIndex) : BackAtTop m'.toMemory := by
  intro _
  refine ⟨back, ?_, htop.trans h.top.symm⟩
  rw [h.top, ← htop]
  exact h.taken back hback

private theorem read_taken (h : Written entries mid m') (hfirst : mid.firstLogIndex = 1)
    (hback : BackAtTop m'.toMemory) {entry : LogEntry} (hentry : entry ∈ entries)
    (hone : 1 ≤ entry.id.index) : m'.getEntry entry.id.index = some (some entry) :=
  getEntry_slot (h.first.trans hfirst) hback hone (h.taken entry hentry)

private theorem read_other (h : Written entries mid m') (hbase : GapFree m)
    (hback : BackAtTop m'.toMemory) (hsettings : mid.firstLogIndex = m.firstLogIndex ∧
      mid.storage = m.storage ∧ mid.firstInMemory = m.firstInMemory)
    (hslots : ∀ i, i ≤ m.maxLogIndex → slot mid.toMemory i = slot m.toMemory i)
    (hgrows : m.maxLogIndex ≤ mid.maxLogIndex) {i : Int} (hi : i ≤ m.maxLogIndex)
    (hnot : ¬ Has entries i) : m'.getEntry i = m.getEntry i := by
  obtain ⟨hfirst, hstorage, hstart⟩ := hsettings
  have hone : m'.firstLogIndex = 1 := h.first.trans (hfirst.trans hbase.first)
  have htop := h.top
  by_cases hlow : i < 1
  · rw [getEntry_outside hone (.inl hlow), getEntry_outside hbase.first (.inl hlow)]
  by_cases hmem : m.firstInMemory ≤ i
  · obtain ⟨entry, hslot, -⟩ := hbase.slots i hmem hi
    rw [getEntry_slot hbase.first hbase.backAtTop (by omega) hslot]
    apply getEntry_slot hone hback (by omega)
    rw [h.other i hnot, hslots i hi, hslot]
  · have hbelow := h.start.trans hstart
    rw [getEntry_stored hone hback (by omega) (by omega) (by omega),
      getEntry_stored hbase.first hbase.backAtTop (by omega) hi (by omega), h.storage, hstorage]

end Written

end Writing

section Branches

variable {m : LogManager γ} {first : Int} {entries : List LogEntry} {front back conflict : LogEntry}
  {done : γ}

private theorem front_index (hentries : Consecutive first entries)
    (hfront : entries.head? = some front) :
    front.id.index = first := by
  cases entries with
  | nil => cases hfront
  | cons head rest =>
    cases hfront
    exact hentries.1

private theorem extend_defined {mem : Memory} (hle : front.id.index ≤ mem.maxLogIndex) (n : Nat)
    (rest : List LogEntry) : ∃ mem', Memory.extend n mem (front :: rest) = some mem' := by
  induction n generalizing mem with
  | zero => exact ⟨mem, rfl⟩
  | succ n ih =>
    rw [Memory.extend, if_neg (by omega)]
    apply ih
    show front.id.index ≤ mem.maxLogIndex + 1
    omega

private theorem resolve_past (hentries : Consecutive first entries)
    (hfront : entries.head? = some front)
    (hback : entries.getLast? = some back) (hone : 1 ≤ first)
    (hgap : first ≤ m.lastLogIndex + 1) (htop : m.maxLogIndex = m.lastLogIndex)
    (happlied : m.appliedId.index < back.id.index) (hpast : m.maxLogIndex < back.id.index) :
    ∃ mem, m.checkAndResolveConflict front back entries false =
        some (.proceed { m with toMemory := mem } entries) ∧
      Prepared entries m.toMemory mem ∧ mem.maxLogIndex = back.id.index := by
  have hend := hentries.back hback
  cases entries with
  | nil => cases hfront
  | cons head rest =>
    cases hfront
    have hindex : front.id.index = first := hentries.1
    unfold LogManager.checkAndResolveConflict
    rw [if_neg (by omega), if_neg (by rintro ⟨-, hlt⟩; omega), if_neg (by omega)]
    by_cases hnext : front.id.index = m.maxLogIndex + 1
    · obtain ⟨hprepared, hmax⟩ : Prepared (front :: rest) m.toMemory
            ((front :: rest).foldl (fun mem entry => mem.pushSlot (some entry)) m.toMemory) ∧
          ((front :: rest).foldl (fun mem entry => mem.pushSlot (some entry))
            m.toMemory).maxLogIndex = m.maxLogIndex + (front :: rest).length :=
        Prepared.pushAll (fun _ h => h) (by rwa [← hnext, hindex])
      rw [if_pos hnext]
      dsimp only
      rw [max_eq_left (by omega)]
      exact ⟨_, rfl, hprepared, by dsimp only; omega⟩
    · rw [if_neg hnext, if_pos hpast]
      obtain ⟨mem, hextend⟩ : ∃ mem, Memory.extend (back.id.index - m.maxLogIndex).toNat
          m.toMemory (front :: rest) = some mem :=
        extend_defined (show front.id.index ≤ m.maxLogIndex by omega) _ rest
      have hmax := maxLogIndex_extend hextend
      rw [hextend]
      exact ⟨mem, rfl, .extend (fun _ h => h) hextend, by omega⟩

private theorem findConflict_eq (h : GapFree m)
    (hin : ∀ entry ∈ entries, entry.id.index ≤ m.lastLogIndex) :
    m.findConflict false entries = some (entries.findIdx (differs m)) := by
  induction entries with
  | nil => rfl
  | cons entry rest ih =>
    obtain ⟨term, hterm⟩ := h.getTerm_defined entry.id.index
    have hle := hin entry (by simp)
    have hdiffers : differs m entry = decide (term ≠ entry.id.term) := by
      unfold differs
      rw [hterm]
      simp [not_lt.mpr hle]
    have hrest := ih fun e he => hin e (by simp [he])
    rw [LogManager.findConflict, hterm, List.findIdx_cons, hdiffers, hrest]
    show (if term ≠ entry.id.term ∧ _ then _ else _) = _
    by_cases hsame : term = entry.id.term
    · simp [hsame]
    · simp [hsame]

private theorem appendEntries_iff_store (herror : m.hasError = false)
    (hfront : entries.head? = some front)
    (hback : entries.getLast? = some back) {mid : LogManager γ} {stored : List LogEntry}
    (hresolve : m.checkAndResolveConflict front back entries false = some (.proceed mid stored))
    (m' : LogManager γ) : m.appendEntries entries done false = some (m', none) ↔
      mid.storeEntries stored done = some m' := by
  rw [appendEntries_iff_resolve herror hfront hback]
  constructor
  · rintro ⟨mid', stored', hresolve', hstore⟩
    cases hresolve.symm.trans hresolve'
    exact hstore
  · intro hstore
    exact ⟨mid, stored, hresolve, hstore⟩

private theorem conflict_bounds (hentries : Consecutive first entries)
    (hback : entries.getLast? = some back) (hfind : entries.find? (differs m) = some conflict) :
    first ≤ conflict.id.index ∧ conflict.id.index ≤ back.id.index := by
  have hmem := List.mem_of_find?_eq_some hfind
  have hhas := (hentries.has_iff conflict.id.index).mp ⟨conflict, hmem, rfl⟩
  have hend := hentries.back hback
  omega

/-- A batch that passes the end of the log is resolved exactly when its slots and bits are
there and it repeats the entries below the conflict. -/
private theorem resolves_past (h : GapFree m) (hentries : Consecutive first entries)
    (hback : entries.getLast? = some back) (hone : 1 ≤ first)
    (hgap : first ≤ m.lastLogIndex + 1) (happlied : m.appliedId.index < back.id.index)
    (hfind : entries.find? (differs m) = some conflict) (hpast : m.maxLogIndex < back.id.index) :
    (∃ m', m.appendEntries entries done false = some (m', none) ∧ Resolves m entries back m') ↔
      Overwrites m entries first back conflict := by
  have hend := hentries.back hback
  have htop := h.top
  have hmem : back ∈ entries := List.mem_of_getLast? hback
  have hne : entries ≠ [] := List.ne_nil_of_mem hmem
  obtain ⟨front, hfront⟩ : ∃ front, entries.head? = some front :=
    ⟨_, List.head?_eq_some_head hne⟩
  obtain ⟨mem, hresolve, hprepared, hmax⟩ :=
    resolve_past hentries hfront hback hone hgap htop happlied hpast
  have hlo := conflict_bounds hentries hback hfind
  have hstart := hprepared.first
  have hwritten : ∀ m', ({ m with toMemory := mem } : LogManager γ).storeEntries entries done =
      some m' → Written entries { m with toMemory := mem } m' :=
    fun m' => written_of_storeEntries hentries hne (by dsimp only; omega)
  have hreads : ∀ m', Written entries { m with toMemory := mem } m' →
      ∀ entry ∈ entries, m'.getEntry entry.id.index = some (some entry) := by
    intro m' hm' entry hentry
    have hhas := (hentries.has_iff entry.id.index).mp ⟨entry, hentry, rfl⟩
    exact hm'.read_taken h.first (hm'.backAtTop hmem hmax.symm) hentry (by omega)
  have hlength : m.firstInMemory = m.maxLogIndex - m.logsInMemory.length + 1 := rfl
  simp only [Resolves, hfind, appendEntries_iff_store h.noError hfront hback hresolve]
  have hdefined := storeEntries_defined_iff (m := { m with toMemory := mem }) done hentries hne
    (by dsimp only; omega)
  dsimp only at hdefined
  constructor
  · rintro ⟨m', hrun, hbelow, -, -⟩
    obtain ⟨hslots, hbits, -⟩ := hdefined.mp ⟨m', hrun⟩
    refine ⟨by omega, by omega, ?_⟩
    intro entry hentry hlt
    rw [← hbelow _ hlt]
    exact hreads m' (hwritten m' hrun) entry hentry
  · rintro ⟨hslots, hbits, hsame⟩
    obtain ⟨m', hrun⟩ := hdefined.mpr ⟨by omega, by omega, .inr (by omega)⟩
    have hm' := hwritten m' hrun
    refine ⟨m', hrun, ?_, ?_, ?_⟩
    · intro i hi
      by_cases hhas : Has entries i
      · obtain ⟨entry, hentry, rfl⟩ := hhas
        rw [hreads m' hm' entry hentry, hsame entry hentry hi]
      · have hbefore : i < first := by
          rw [hentries.has_iff] at hhas
          omega
        exact hm'.read_other h (hm'.backAtTop hmem hmax.symm) ⟨rfl, rfl, hstart⟩
          hprepared.below hprepared.grows (by omega) hhas
    · intro entry hentry _
      exact hreads m' hm' entry hentry
    · intro _
      have htop' : m'.maxLogIndex = back.id.index := hm'.top.trans hmax
      refine ⟨?_, fun i hi => unsafeGetTerm_above (by omega)⟩
      have hlast : m'.lastLogIndex = mem.maxLogIndex := by
        apply hm'.last
        · dsimp only
          omega
        · intro i hi hi'
          dsimp only at hi hi'
          obtain ⟨entry, hentry, rfl⟩ := (hentries.has_iff i).mpr ⟨by omega, by omega⟩
          exact ⟨entry, hm'.taken entry hentry⟩
      rw [hlast, hmax]

private theorem resolves_same (h : GapFree m) (hentries : Consecutive first entries)
    (hback : entries.getLast? = some back) (hone : 1 ≤ first)
    (happlied : m.appliedId.index < back.id.index) (hfind : entries.find? (differs m) = none) :
    ∃ m', m.appendEntries entries done false = some (m', none) ∧ Resolves m entries back m' := by
  have hend := hentries.back hback
  have htop := h.top
  have hne : entries ≠ [] := List.ne_nil_of_mem (List.mem_of_getLast? hback)
  have hpos := List.length_pos_iff.mpr hne
  obtain ⟨front, hfront⟩ : ∃ front, entries.head? = some front :=
    ⟨_, List.head?_eq_some_head hne⟩
  have hnone := List.find?_eq_none.mp hfind
  have hle : ∀ entry ∈ entries, entry.id.index ≤ m.lastLogIndex := by
    intro entry hentry
    by_contra hlt
    exact hnone entry hentry (by simp [differs, not_le.mp hlt])
  have hbackLe := hle back (List.mem_of_getLast? hback)
  have hlength : entries.findIdx (differs m) = entries.length :=
    List.findIdx_eq_length.mpr fun entry hentry => by simpa using hnone entry hentry
  have hresolve : m.checkAndResolveConflict front back entries false = some (.proceed m []) := by
    have hindex := front_index hentries hfront
    rw [checkAndResolveConflict_overlap (by omega) (.inr (by omega)) happlied (by omega) (by omega),
      resolveOverlap_eq, findConflict_eq h hle, hlength]
    simp [afterConflict, remaining]
  simp only [Resolves, hfind, appendEntries_iff_store h.noError hfront hback hresolve]
  exact ⟨_, rfl, fun i => rfl, rfl⟩

/-- Within the log, what is written is the batch from the conflict on, into the truncated
manager. -/
private theorem resolve_within (h : GapFree m) (hentries : Consecutive first entries)
    (hfront : entries.head? = some front) (hback : entries.getLast? = some back) (hone : 1 ≤ first)
    (happlied : m.appliedId.index < back.id.index)
    (hfind : entries.find? (differs m) = some conflict) (hin : back.id.index ≤ m.maxLogIndex) :
    ∃ n : Nat, conflict.id.index = first + n ∧ n < entries.length ∧
      m.checkAndResolveConflict front back entries false =
        (m.unsafeTruncateSuffix (conflict.id.index - 1)).map fun mid =>
          .proceed { mid with maxLogIndex := max mid.maxLogIndex back.id.index }
            (entries.drop n) := by
  have hend := hentries.back hback
  have htop := h.top
  have hlo := conflict_bounds hentries hback hfind
  have hindex := front_index hentries hfront
  have hle : ∀ entry ∈ entries, entry.id.index ≤ m.lastLogIndex := by
    intro entry hentry
    have hhas := (hentries.has_iff entry.id.index).mp ⟨entry, hentry, rfl⟩
    omega
  have hconflict : entries.find? (differs m) = entries[entries.findIdx (differs m)]? :=
    List.find?_eq_getElem?_findIdx
  rw [hfind] at hconflict
  have hbound := (List.getElem?_eq_some_iff.mp hconflict.symm).1
  refine ⟨entries.findIdx (differs m), hentries.index hconflict.symm, hbound, ?_⟩
  rw [checkAndResolveConflict_overlap (by omega) (.inr (by omega)) happlied (by omega) hin,
    resolveOverlap_eq, findConflict_eq h hle]
  have hafter : afterConflict m entries (entries.findIdx (differs m)) =
      m.unsafeTruncateSuffix (conflict.id.index - 1) := by
    unfold afterConflict
    rw [← hconflict]
    exact if_pos (by omega)
  have hremaining : remaining entries false (entries.findIdx (differs m)) =
      entries.drop (entries.findIdx (differs m)) := rfl
  have hlast : (entries.drop (entries.findIdx (differs m))).getLast? = some back := by
    rw [List.getLast?_drop, if_neg (by omega), hback]
  show (afterConflict m entries _).map _ = _
  rw [hafter, hremaining, hlast]

private theorem mem_drop_of_le (hentries : Consecutive first entries) {n : Nat} {entry : LogEntry}
    (hentry : entry ∈ entries) (hle : first + n ≤ entry.id.index) : entry ∈ entries.drop n := by
  obtain ⟨k, hk⟩ := List.mem_iff_getElem?.mp hentry
  have hindex := hentries.index hk
  refine List.mem_iff_getElem?.mpr ⟨k - n, ?_⟩
  rw [List.getElem?_drop, show n + (k - n) = k by omega]
  exact hk

/-- Where the applied index forbids the truncation, the slots from the conflict on are
overwritten and the last index stays. -/
private theorem resolves_kept (h : GapFree m) (hentries : Consecutive first entries)
    (hback : entries.getLast? = some back) (hone : 1 ≤ first)
    (hfind : entries.find? (differs m) = some conflict) (hin : back.id.index ≤ m.maxLogIndex)
    {n : Nat} (hn : conflict.id.index = first + n) (hlt : n < entries.length) :
    (∃ m', m.storeEntries (entries.drop n) done = some m' ∧ Resolves m entries back m') ↔
      back.id.index = m.maxLogIndex ∧ m.maxLogIndex - conflict.id.index < 1024 ∧
        m.firstInMemory ≤ conflict.id.index := by
  have hend := hentries.back hback
  have htop := h.top
  have hdrop : Consecutive conflict.id.index (entries.drop n) := hn ▸ hentries.drop n
  have hlength : (entries.drop n).length = entries.length - n := List.length_drop
  have hne : entries.drop n ≠ [] := List.ne_nil_of_length_pos (by omega)
  have hmem : back ∈ entries.drop n :=
    mem_drop_of_le hentries (List.mem_of_getLast? hback) (by omega)
  have hdefined := storeEntries_defined_iff (m := m) done hdrop hne (by omega)
  have hwritten : ∀ m', m.storeEntries (entries.drop n) done = some m' →
      Written (entries.drop n) m m' ∧ m'.lastLogIndex = m.maxLogIndex := by
    intro m' hrun
    have hm' := written_of_storeEntries hdrop hne (by omega) hrun
    exact ⟨hm', hm'.last (by omega) fun i hlo hhi => by omega⟩
  simp only [Resolves, hfind]
  constructor
  · rintro ⟨m', hrun, -, -, hseen⟩
    obtain ⟨hslots, hbits, -⟩ := hdefined.mp ⟨m', hrun⟩
    have hlast := (hwritten m' hrun).2
    exact ⟨(hseen (by omega)).1.symm.trans hlast, hbits, hslots⟩
  · rintro ⟨hreach, hbits, hslots⟩
    obtain ⟨m', hrun⟩ := hdefined.mpr ⟨hslots, hbits, .inl (by omega)⟩
    obtain ⟨hm', hlast⟩ := hwritten m' hrun
    have hbackAtTop := hm'.backAtTop hmem hreach
    refine ⟨m', hrun, ?_, ?_, ?_⟩
    · intro i hi
      apply hm'.read_other h hbackAtTop ⟨rfl, rfl, rfl⟩ (fun _ _ => rfl) (le_refl _) (by omega)
      rw [hdrop.has_iff]
      omega
    · intro entry hentry hle
      exact hm'.read_taken h.first hbackAtTop (mem_drop_of_le hentries hentry (by omega)) (by omega)
    · intro _
      have htop' := hm'.top
      exact ⟨hlast.trans hreach.symm, fun i hi => unsafeGetTerm_above (by omega)⟩

end Branches

section Truncation

variable {m : LogManager γ} {first c : Int} {entries : List LogEntry} {back conflict : LogEntry}
  {done : γ}

private theorem GapFree.cutsTo (h : GapFree m) (hc : c ≤ m.maxLogIndex) :
    CutsTo (c - 1) m.logsInMemory (m.logsInMemory.take (c - m.firstInMemory).toNat) := by
  have hlength : m.firstInMemory = m.maxLogIndex - m.logsInMemory.length + 1 := rfl
  have hentry : ∀ (k : Nat) slot, m.logsInMemory[k]? = some slot →
      ∃ entry, slot = some entry ∧ entry.id.index = m.firstInMemory + k := by
    intro k slot hk
    have hbound := (List.getElem?_eq_some_iff.mp hk).1
    obtain ⟨entry, hslot, hindex⟩ := h.slots (m.firstInMemory + k) (by omega) (by omega)
    have hitem : item m.logsInMemory k = some (some entry) := by
      rw [show (k : Int) = m.firstInMemory + k - m.firstInMemory by omega]
      exact hslot
    have heq : m.logsInMemory[k]? = some (some entry) := hitem
    rw [hk, Option.some.injEq] at heq
    exact ⟨entry, heq, hindex⟩
  refine ⟨⟨m.logsInMemory.drop (c - m.firstInMemory).toNat, (List.take_append_drop _ _).symm, ?_⟩, ?_⟩
  · intro slot hslot
    obtain ⟨k, hk⟩ := List.mem_iff_getElem?.mp hslot
    rw [List.getElem?_drop] at hk
    obtain ⟨entry, rfl, hindex⟩ := hentry _ slot hk
    refine ⟨entry, rfl, ?_⟩
    push_cast at hindex
    omega
  · intro slot hslot
    rw [List.getLast?_eq_getElem?] at hslot
    have hbound := (List.getElem?_eq_some_iff.mp hslot).1
    rw [List.getElem?_take_of_lt (by rw [List.length_take] at *; omega)] at hslot
    obtain ⟨entry, rfl, hindex⟩ := hentry _ slot hslot
    rw [List.length_take] at hbound hindex
    exact ⟨entry, rfl, by omega⟩

/-- Truncating a gap-free log keeps the slots below the conflict, in a memory that still
ends at the largest index. -/
theorem GapFree.truncate (h : GapFree m) (happlied : m.appliedId.index < c)
    (hc : c ≤ m.maxLogIndex) : ∃ mid, m.unsafeTruncateSuffix (c - 1) = some mid ∧
      Truncated m (c - 1) (m.logsInMemory.take (c - m.firstInMemory).toNat) mid := by
  obtain ⟨hspec, hdefined⟩ := unsafeTruncateSuffix_iff (m := m) (show _ ≤ c - 1 by omega)
  obtain ⟨mid, hmid⟩ := hdefined _ (h.cutsTo hc)
  obtain ⟨kept, hkept, htruncated⟩ := hspec mid hmid
  rw [← hkept.unique (h.cutsTo hc)]
  exact ⟨mid, hmid, htruncated⟩

/-- The memory behind a truncation that popped the slots from the conflict on: the slots
that are left have moved up to the largest index. -/
private theorem GapFree.slot_truncated (h : GapFree m) (hc : c ≤ m.maxLogIndex) {mid : LogManager γ}
    (hmid : Truncated m (c - 1) (m.logsInMemory.take (c - m.firstInMemory).toNat) mid) :
    mid.firstInMemory = m.maxLogIndex - (c - m.firstInMemory).toNat + 1 ∧
      ∀ i, mid.firstInMemory ≤ i → i ≤ m.maxLogIndex →
        ∃ entry, slot mid.toMemory i = some (some entry) ∧
          entry.id.index = i - (mid.firstInMemory - m.firstInMemory) := by
  have hlength : m.firstInMemory = m.maxLogIndex - m.logsInMemory.length + 1 := rfl
  have hlogs : mid.logsInMemory = m.logsInMemory.take (c - m.firstInMemory).toNat :=
    congrArg Memory.logsInMemory hmid.memory
  have hfirst : mid.firstInMemory = m.maxLogIndex - (c - m.firstInMemory).toNat + 1 := by
    rw [hmid.memory]
    simp only [Memory.firstInMemory, List.length_take]
    omega
  refine ⟨hfirst, ?_⟩
  intro i hlo hhi
  obtain ⟨entry, hslot, hindex⟩ := h.slots (i - (mid.firstInMemory - m.firstInMemory))
    (by omega) (by omega)
  refine ⟨entry, ?_, hindex⟩
  unfold slot item at hslot ⊢
  rw [if_pos (by omega)] at hslot ⊢
  rw [hlogs, List.getElem?_take_of_lt (by omega), ← hslot]
  congr 2
  omega

/-- Behind a truncation the batch is read back exactly when the slots that are left are
all written over, and the entries that were in them are on disk. -/
private theorem resolves_cut (h : GapFree m) (hentries : Consecutive first entries)
    (hback : entries.getLast? = some back)
    (hfind : entries.find? (differs m) = some conflict) (hin : back.id.index ≤ m.maxLogIndex)
    {n : Nat} (hn : conflict.id.index = first + n) (hlt : n < entries.length) {mid : LogManager γ}
    (hmid : Truncated m (conflict.id.index - 1)
      (m.logsInMemory.take (conflict.id.index - m.firstInMemory).toNat) mid) :
    (∃ m', mid.storeEntries (entries.drop n) done = some m' ∧ Resolves m entries back m') ↔
      back.id.index = m.maxLogIndex ∧ m.maxLogIndex - conflict.id.index < 1024 ∧
        conflict.id.index - m.firstInMemory = m.maxLogIndex - conflict.id.index + 1 ∧
        ∀ i, m.firstInMemory ≤ i → i < conflict.id.index →
          m.getEntry i = some (m.storage.getEntry i) := by
  have hend := hentries.back hback
  have htop := h.top
  have hstart := h.start
  have hdrop : Consecutive conflict.id.index (entries.drop n) := hn ▸ hentries.drop n
  have hlength : (entries.drop n).length = entries.length - n := List.length_drop
  have hne : entries.drop n ≠ [] := List.ne_nil_of_length_pos (by omega)
  have hmem : back ∈ entries.drop n :=
    mem_drop_of_le hentries (List.mem_of_getLast? hback) (by omega)
  have hmax := hmid.maxLogIndex_eq
  have hfirst : mid.firstLogIndex = 1 := hmid.rest.2.1.trans h.first
  have hmidLast := hmid.last
  obtain ⟨hlow, hmoved⟩ := h.slot_truncated (by omega) hmid
  have hdefined := storeEntries_defined_iff (m := mid) done hdrop hne (by omega)
  -- Every slot from the conflict to the largest index is filled.
  have hwritten : ∀ m', mid.storeEntries (entries.drop n) done = some m' →
      Written (entries.drop n) mid m' ∧ m'.lastLogIndex = m.maxLogIndex := by
    intro m' hrun
    have hm' := written_of_storeEntries hdrop hne (by omega) hrun
    have hslots := (hdefined.mp ⟨m', hrun⟩).1
    refine ⟨hm', (hm'.last (by omega) ?_).trans hmax⟩
    intro i hlo hhi
    by_cases hhas : Has (entries.drop n) i
    · obtain ⟨entry, hentry, rfl⟩ := hhas
      exact ⟨entry, hm'.taken entry hentry⟩
    · obtain ⟨entry, hslot, -⟩ := hmoved i (by omega) (by omega)
      exact ⟨entry, (hm'.other i hhas).trans hslot⟩
  have hstored : ∀ m', Written (entries.drop n) mid m' → BackAtTop m'.toMemory → ∀ i, 1 ≤ i →
      i < mid.firstInMemory → i ≤ m.maxLogIndex → m'.getEntry i = some (m.storage.getEntry i) := by
    intro m' hm' hbackAtTop i hi hbelow hle
    have htop' := hm'.top
    have hstart' := hm'.start
    rw [getEntry_stored (hm'.first.trans hfirst) hbackAtTop hi (by omega) (by omega), hm'.storage,
      hmid.rest.2.2.1]
  simp only [Resolves, hfind]
  constructor
  · rintro ⟨m', hrun, hbelow, -, hseen⟩
    obtain ⟨hslots, hbits, -⟩ := hdefined.mp ⟨m', hrun⟩
    obtain ⟨hm', hlast⟩ := hwritten m' hrun
    have hreach : back.id.index = m.maxLogIndex := (hseen (by omega)).1.symm.trans hlast
    have hbackAtTop := hm'.backAtTop hmem (hreach.trans hmax.symm)
    -- A slot left below the conflict holds the entry of a smaller index.
    have hexact : mid.firstInMemory = conflict.id.index := by
      by_contra hnot
      obtain ⟨entry, hslot, hindex⟩ := hmoved (conflict.id.index - 1) (by omega) (by omega)
      have hother : ¬ Has (entries.drop n) (conflict.id.index - 1) := by
        rw [hdrop.has_iff]
        omega
      have hnew := getEntry_slot (hm'.first.trans hfirst) hbackAtTop (by omega)
        ((hm'.other _ hother).trans hslot)
      obtain ⟨old, hold, holdIndex⟩ := h.read (show 1 ≤ conflict.id.index - 1 by omega) (by omega)
      have heq := hnew.symm.trans ((hbelow _ (by omega)).trans hold)
      cases heq
      omega
    refine ⟨hreach, by omega, by omega, ?_⟩
    intro i hlo hhi
    rw [← hbelow i hhi]
    exact hstored m' hm' hbackAtTop i (by omega) (by omega) (by omega)
  · rintro ⟨hreach, hbits, hexact, hdisk⟩
    obtain ⟨m', hrun⟩ := hdefined.mpr ⟨by omega, by omega, .inr (by omega)⟩
    obtain ⟨hm', hlast⟩ := hwritten m' hrun
    have hbackAtTop := hm'.backAtTop hmem (hreach.trans hmax.symm)
    refine ⟨m', hrun, ?_, ?_, ?_⟩
    · intro i hi
      by_cases hlo : i < 1
      · rw [getEntry_outside (hm'.first.trans hfirst) (.inl hlo), getEntry_outside h.first (.inl hlo)]
      rw [hstored m' hm' hbackAtTop i (by omega) (by omega) (by omega)]
      by_cases hmemory : m.firstInMemory ≤ i
      · exact (hdisk i hmemory hi).symm
      · exact (getEntry_stored h.first h.backAtTop (by omega) (by omega) (by omega)).symm
    · intro entry hentry hle
      exact hm'.read_taken hfirst hbackAtTop (mem_drop_of_le hentries hentry (by omega)) (by omega)
    · intro _
      have htop' := hm'.top
      exact ⟨hlast.trans hreach.symm, fun i hi => unsafeGetTerm_above (by omega)⟩

/-- A batch is resolved as it should be exactly when it can be written over the old log:
past the end, into slots that are there; within the log, up to its very end. -/
theorem appendEntries_resolves_iff (h : GapFree m) (hentries : Consecutive first entries)
    (hback : entries.getLast? = some back) (hone : 1 ≤ first)
    (hgap : first ≤ m.lastLogIndex + 1) (happlied : m.appliedId.index < back.id.index) :
    (∃ m', m.appendEntries entries done false = some (m', none) ∧ Resolves m entries back m') ↔
      Resolvable m entries first back := by
  have hend := hentries.back hback
  have htop := h.top
  have hne : entries ≠ [] := List.ne_nil_of_mem (List.mem_of_getLast? hback)
  obtain ⟨front, hfront⟩ : ∃ front, entries.head? = some front :=
    ⟨_, List.head?_eq_some_head hne⟩
  unfold Resolvable
  cases hfind : entries.find? (differs m) with
  | none => exact iff_of_true (resolves_same h hentries hback hone happlied hfind) trivial
  | some conflict =>
    dsimp only
    by_cases hpast : m.maxLogIndex < back.id.index
    · rw [if_pos hpast]
      exact resolves_past h hentries hback hone hgap happlied hfind hpast
    · rw [if_neg hpast]
      have hin : back.id.index ≤ m.maxLogIndex := by omega
      have hbounds := conflict_bounds hentries hback hfind
      obtain ⟨n, hn, hlt, hresolve⟩ :=
        resolve_within h hentries hfront hback hone happlied hfind hin
      unfold Replaces
      by_cases hkept : conflict.id.index ≤ m.appliedId.index
      · have hsame : m.unsafeTruncateSuffix (conflict.id.index - 1) = some m := by
          unfold LogManager.unsafeTruncateSuffix
          rw [if_pos (by omega)]
        rw [hsame, Option.map_some, max_eq_left hin] at hresolve
        simp only [appendEntries_iff_store h.noError hfront hback hresolve]
        rw [resolves_kept h hentries hback hone hfind hin hn hlt]
        simp [hkept, not_lt.mpr hkept]
      · obtain ⟨mid, htruncate, hmid⟩ := h.truncate (show m.appliedId.index < conflict.id.index by
          omega) (by omega)
        have hmax := hmid.maxLogIndex_eq
        rw [htruncate, Option.map_some, max_eq_left (by omega)] at hresolve
        simp only [appendEntries_iff_store h.noError hfront hback hresolve]
        rw [resolves_cut h hentries hback hfind hin hn hlt hmid]
        simp [hkept, not_le.mp hkept]

end Truncation

/-- Three entries of term 1, all of them in memory. -/
private structure ThreeInMemory (m : LogManager Unit) : Prop where
  logs : m.logsInMemory = [some (sampleEntry 1 1), some (sampleEntry 2 1), some (sampleEntry 3 1)]
  top : m.maxLogIndex = 3 ∧ m.lastLogIndex = 3
  rest : m.hasError = false ∧ m.firstLogIndex = 1

private theorem ThreeInMemory.gapFree {m : LogManager Unit} (h : ThreeInMemory m) : GapFree m := by
  have hfirst : m.firstInMemory = 1 := by
    unfold Memory.firstInMemory
    rw [h.top.1, h.logs]
    rfl
  refine ⟨h.rest.1, h.rest.2, h.top.1.trans h.top.2.symm, hfirst.ge, ?_, ?_⟩
  · intro i hlo hhi
    rw [hfirst] at hlo
    rw [h.top.1] at hhi
    unfold slot
    rw [hfirst, h.logs]
    obtain rfl | rfl | rfl : i = 1 ∨ i = 2 ∨ i = 3 := by omega
    · exact ⟨sampleEntry 1 1, rfl, rfl⟩
    · exact ⟨sampleEntry 2 1, rfl, rfl⟩
    · exact ⟨sampleEntry 3 1, rfl, rfl⟩
  · intro i hlo hhi
    omega

private def threeEntries : LogManager Unit :=
  { (LogManager.fresh 63 : LogManager Unit) with
    maxLogIndex := 3
    dependencyBitmap := 7
    logsInMemory := [some (sampleEntry 1 1), some (sampleEntry 2 1), some (sampleEntry 3 1)]
    lastLogIndex := 3 }

theorem appendEntries_resolves_iff_past :
    Resolvable threeEntries [sampleEntry 2 1, sampleEntry 3 2, sampleEntry 4 2] 2
        (sampleEntry 4 2) ∧
      ∃ m', threeEntries.appendEntries [sampleEntry 2 1, sampleEntry 3 2, sampleEntry 4 2] ()
          false = some (m', none) ∧
        Resolves threeEntries [sampleEntry 2 1, sampleEntry 3 2, sampleEntry 4 2]
          (sampleEntry 4 2) m' := by
  have hentries : Consecutive 2 [sampleEntry 2 1, sampleEntry 3 2, sampleEntry 4 2] := by decide
  have hfind : [sampleEntry 2 1, sampleEntry 3 2, sampleEntry 4 2].find? (differs threeEntries) =
    some (sampleEntry 3 2) := by decide
  have hresolvable : Resolvable threeEntries [sampleEntry 2 1, sampleEntry 3 2, sampleEntry 4 2] 2
      (sampleEntry 4 2) := by
    simp only [Resolvable, hfind]
    rw [if_pos (by decide)]
    exact ⟨by decide, by decide, by decide⟩
  have hgapFree : GapFree threeEntries := ThreeInMemory.gapFree ⟨rfl, ⟨rfl, rfl⟩, rfl, rfl⟩
  exact ⟨hresolvable, (appendEntries_resolves_iff hgapFree hentries rfl (by decide) (by decide)
    (by decide)).mpr hresolvable⟩

/-- A log of three entries whose last one conflicts: the slot of entry 1 is then counted as
that of entry 2, and entry 1 is looked for on disk. -/
theorem conflict_misread :
    ∃ m m', (LogManager.fresh 63).appendEntries
        [sampleEntry 1 1, sampleEntry 2 1, sampleEntry 3 1] () false = some (m, none) ∧ GapFree m ∧
      m.appliedId.index < 3 ∧ 3 ≤ m.lastLogIndex + 1 ∧
      m.appendEntries [sampleEntry 3 2] () false = some (m', none) ∧
      m.getEntry 2 = some (some (sampleEntry 2 1)) ∧ m'.getEntry 2 = some (some (sampleEntry 1 1)) ∧
      ¬ Resolves m [sampleEntry 3 2] (sampleEntry 3 2) m' := by
  refine ⟨_, _, rfl, ThreeInMemory.gapFree ⟨rfl, ⟨rfl, rfl⟩, rfl, rfl⟩, by decide, by decide, rfl,
    by decide, by decide, ?_⟩
  intro hresolves
  have hsame := hresolves.1 2 (by decide)
  revert hsame
  decide

end HitConsistency.Log.ConflictResolution
