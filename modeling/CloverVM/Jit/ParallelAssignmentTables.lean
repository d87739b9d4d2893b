import CloverVM.Machine.ParallelMoves
import CloverVM.Jit.ParallelAssignment

/-!
# The tables of the parallel assignment resolver

The resolver keeps three maps and a queue next to its assignments.  The maps
say who reads and who writes a location, and the queue has the assignments that
may be carried out.  Here every operation of the resolver is shown to keep them
in step, and what it does to the assignments themselves is said once.
-/

namespace CloverVM.Jit

open CloverVM.Machine
open CloverVM.Machine.ParallelMoves

variable {Location : Type}

/-- An assignment without the mark that it is in the queue. -/
def PendingAssignment.core (p : PendingAssignment Location) :
    PendingAssignment Location :=
  { p with queued := false }

/-- The assignments of a resolver, without the marks. -/
def Resolver.entries (r : Resolver Location) :
    List (PendingAssignment Location) :=
  r.pending.map PendingAssignment.core

/-- How many pending assignments read the location. -/
def readers [DecidableEq Location]
    (entries : List (PendingAssignment Location)) (l : Location) : Nat :=
  entries.countP fun p => p.pending && decide (p.sourceLocation = l)

namespace Resolver

variable {r r' : Resolver Location}

theorem entries_getElem? {j : Nat} {p : PendingAssignment Location}
    (h : r.pending[j]? = some p) : r.entries[j]? = some p.core := by
  unfold entries
  rw [List.getElem?_map, h]
  rfl

theorem exists_of_entries {j : Nat} {e : PendingAssignment Location}
    (h : r.entries[j]? = some e) :
    ∃ p, r.pending[j]? = some p ∧ p.core = e := by
  unfold entries at h
  rw [List.getElem?_map] at h
  exact Option.map_eq_some_iff.mp h

/-! ## The queue -/

/-- The queue has the pending assignments whose destination nobody reads, each
once, except for some that it may not have yet. -/
structure Queue (exempt : Nat → Location → Prop) (r : Resolver Location) :
    Prop where
  nodup : r.ready.Nodup
  queued_iff : ∀ (j : Nat) (p : PendingAssignment Location),
    r.pending[j]? = some p → (p.queued = true ↔ j ∈ r.ready)
  ready_free : ∀ j ∈ r.ready, ∃ p, r.pending[j]? = some p ∧
    p.pending = true ∧ r.nPendingSources p.destination = none
  free_ready : ∀ (j : Nat) (p : PendingAssignment Location),
    r.pending[j]? = some p → p.pending = true →
      r.nPendingSources p.destination = none → ¬ exempt j p.destination →
      j ∈ r.ready

/-- Everything but the queue and its marks is the same. -/
structure SameTables (r r' : Resolver Location) : Prop where
  entries_eq : r'.entries = r.entries
  result_eq : r'.result = r.result
  nPending_eq : r'.nPending = r.nPending
  sources_eq : r'.nPendingSources = r.nPendingSources
  bySource_eq : r'.assignmentsBySource = r.assignmentsBySource
  byDestination_eq : r'.assignmentByDestination = r.assignmentByDestination
  candidates_eq : r'.cycleCandidates = r.cycleCandidates
  calls_eq : r'.scratchCalls = r.scratchCalls

theorem SameTables.refl (r : Resolver Location) : SameTables r r :=
  ⟨rfl, rfl, rfl, rfl, rfl, rfl, rfl, rfl⟩

theorem SameTables.trans {r'' : Resolver Location} (h : SameTables r r')
    (h' : SameTables r' r'') : SameTables r r'' :=
  { entries_eq := h'.entries_eq.trans h.entries_eq
    result_eq := h'.result_eq.trans h.result_eq
    nPending_eq := h'.nPending_eq.trans h.nPending_eq
    sources_eq := h'.sources_eq.trans h.sources_eq
    bySource_eq := h'.bySource_eq.trans h.bySource_eq
    byDestination_eq := h'.byDestination_eq.trans h.byDestination_eq
    candidates_eq := h'.candidates_eq.trans h.candidates_eq
    calls_eq := h'.calls_eq.trans h.calls_eq }

theorem Queue.weaken {E F : Nat → Location → Prop} (h : Queue E r)
    (hEF : ∀ (j : Nat) (p : PendingAssignment Location),
      r.pending[j]? = some p → E j p.destination → F j p.destination) :
    Queue F r :=
  { h with
    free_ready := fun j p hj hp hFree hNot =>
      h.free_ready j p hj hp hFree fun hE => hNot (hEF j p hj hE) }

/-- After the test the assignment is in the queue if it should be. -/
theorem enqueueIfReady_spec {E : Nat → Location → Prop} (hQ : Queue E r)
    (index : Nat) :
    SameTables r (r.enqueueIfReady index) ∧
      Queue (fun j l => E j l ∧ j ≠ index) (r.enqueueIfReady index) := by
  have hStay : (∀ p, r.pending[index]? = some p → p.pending = true →
      r.nPendingSources p.destination = none → index ∈ r.ready) →
      Queue (fun j l => E j l ∧ j ≠ index) r := by
    intro hIn
    refine { hQ with free_ready := fun j p hj hp hFree hNot => ?_ }
    by_cases hSame : j = index
    · subst hSame
      exact hIn p hj hp hFree
    · exact hQ.free_ready j p hj hp hFree fun hE => hNot ⟨hE, hSame⟩
  unfold enqueueIfReady
  cases hIndex : r.pending[index]? with
  | none =>
      refine ⟨SameTables.refl r, hStay fun p hp => ?_⟩
      exact absurd (hIndex.symm.trans hp) nofun
  | some p =>
      dsimp only
      split
      · rename_i hSkip
        refine ⟨SameTables.refl r, hStay fun q hq hp hFree => ?_⟩
        obtain rfl := Option.some.inj (hIndex.symm.trans hq)
        rw [hp, hFree] at hSkip
        exact (hQ.queued_iff index p hIndex).mp (by simpa using hSkip)
      · rename_i hTake
        simp only [Bool.or_eq_true, Bool.not_eq_true', not_or,
          Bool.not_eq_false, Bool.not_eq_true, Option.isSome_eq_false_iff,
          Option.isNone_iff_eq_none] at hTake
        obtain ⟨⟨hPending, hQueued⟩, hFree⟩ := hTake
        have hNotIn : index ∉ r.ready := fun hIn => by
          rw [(hQ.queued_iff index p hIndex).mpr hIn] at hQueued
          exact nomatch hQueued
        refine ⟨⟨map_set_of_eq PendingAssignment.core _ hIndex rfl, rfl, rfl, rfl,
          rfl, rfl, rfl, rfl⟩, ?_⟩
        refine
          { nodup := ?_
            queued_iff := fun j q hj => ?_
            ready_free := fun j hj => ?_
            free_ready := fun j q hj hp hqFree hNot => ?_ }
        · exact List.nodup_append.mpr ⟨hQ.nodup, List.nodup_singleton _,
            fun a ha b hb hab => hNotIn
              (List.mem_singleton.mp hb ▸ hab ▸ ha)⟩
        · show q.queued = true ↔ j ∈ r.ready ++ [index]
          rcases getElem?_set_cases hj with ⟨rfl, rfl⟩ | ⟨hNe, hOld⟩
          · simp
          · rw [hQ.queued_iff j q hOld, List.mem_append, List.mem_singleton]
            exact ⟨.inl, fun h => h.resolve_right hNe⟩
        · rcases List.mem_append.mp hj with hOld | hNew
          · obtain ⟨q, hq, hp, hqFree⟩ := hQ.ready_free j hOld
            refine ⟨q, ?_, hp, hqFree⟩
            show (r.pending.set index _)[j]? = some q
            rw [List.getElem?_set_ne (fun h : index = j => hNotIn (h ▸ hOld))]
            exact hq
          · obtain rfl := List.mem_singleton.mp hNew
            exact ⟨{ p with queued := true }, List.getElem?_set_self
              (List.getElem?_eq_some_iff.mp hIndex).1, hPending, hFree⟩
        · rcases getElem?_set_cases hj with ⟨rfl, rfl⟩ | ⟨hNe, hOld⟩
          · exact List.mem_append_right _ (List.mem_singleton.mpr rfl)
          · exact List.mem_append_left _ (hQ.free_ready j q hOld hp hqFree
              fun hE => hNot ⟨hE, hNe⟩)

/-! ## The maps -/

variable [DecidableEq Location]

theorem readers_eq_zero {entries : List (PendingAssignment Location)}
    {l : Location} :
    readers entries l = 0 ↔
      ∀ e ∈ entries, e.pending = true → e.sourceLocation ≠ l := by
  unfold readers
  rw [List.countP_eq_zero]
  simp

/-- What the change of one assignment does to the number of readers. -/
theorem readers_set {entries : List (PendingAssignment Location)} {j : Nat}
    {e new : PendingAssignment Location} (hj : entries[j]? = some e)
    (l : Location) :
    readers (entries.set j new) l =
      readers entries l -
          (if e.pending && decide (e.sourceLocation = l) then 1 else 0) +
        (if new.pending && decide (new.sourceLocation = l) then 1 else 0) := by
  obtain ⟨hLt, hGet⟩ := List.getElem?_eq_some_iff.mp hj
  unfold readers
  rw [List.countP_set hLt, hGet]

/-- The maps say of the assignments what they are for. -/
structure Tables (r : Resolver Location) : Prop where
  destinations : (r.entries.map PendingAssignment.destination).Nodup
  byDestination : ∀ (l : Location) (j : Nat),
    r.assignmentByDestination l = some j ↔
      ∃ e, r.entries[j]? = some e ∧ e.destination = l
  sources : ∀ l, r.nPendingSources l =
    if readers r.entries l = 0 then none else some (readers r.entries l)
  users_nodup : ∀ l users, r.assignmentsBySource l = some users → users.Nodup
  users_lt : ∀ l users, r.assignmentsBySource l = some users →
    ∀ u ∈ users, u < r.entries.length
  users_live : ∀ l users, r.assignmentsBySource l = some users →
    readers r.entries l ≠ 0
  users_mem : ∀ (j : Nat) (e : PendingAssignment Location),
    r.entries[j]? = some e → e.pending = true →
      ∃ users, r.assignmentsBySource e.sourceLocation = some users ∧ j ∈ users

theorem Tables.of_same (h : Tables r) (hSame : SameTables r r') :
    Tables r' := by
  constructor
  · rw [hSame.entries_eq]
    exact h.destinations
  · rw [hSame.entries_eq, hSame.byDestination_eq]
    exact h.byDestination
  · rw [hSame.entries_eq, hSame.sources_eq]
    exact h.sources
  · rw [hSame.bySource_eq]
    exact h.users_nodup
  · rw [hSame.entries_eq, hSame.bySource_eq]
    exact h.users_lt
  · rw [hSame.entries_eq, hSame.bySource_eq]
    exact h.users_live
  · rw [hSame.entries_eq, hSame.bySource_eq]
    exact h.users_mem

theorem Tables.sources_eq_none (h : Tables r) {l : Location} :
    r.nPendingSources l = none ↔ readers r.entries l = 0 := by
  rw [h.sources l]
  split <;> simp_all

theorem Tables.sources_eq_some (h : Tables r) {l : Location}
    (hl : readers r.entries l ≠ 0) :
    r.nPendingSources l = some (readers r.entries l) := by
  rw [h.sources l, if_neg hl]

/-- The readers of a location that is free again have been looked at. -/
theorem sourceBecameFree_spec (hT : Tables r) {source : Location}
    (hQ : Queue (fun _ l => l = source) r) :
    SameTables r (r.sourceBecameFree source) ∧
      Queue (fun _ _ => False) (r.sourceBecameFree source) := by
  unfold sourceBecameFree
  cases hIndex : r.assignmentByDestination source with
  | none =>
      refine ⟨SameTables.refl r, hQ.weaken fun j p hj hSame => ?_⟩
      have hSome := (hT.byDestination source j).mpr
        ⟨p.core, entries_getElem? hj, hSame⟩
      exact absurd (hIndex.symm.trans hSome) nofun
  | some index =>
      obtain ⟨hSame, hQueue⟩ := enqueueIfReady_spec hQ index
      refine ⟨hSame, hQueue.weaken fun j p hj hE => ?_⟩
      obtain ⟨hDestination, hNe⟩ := hE
      have hEntry := entries_getElem? hj
      rw [hSame.entries_eq] at hEntry
      have hSome := (hT.byDestination source j).mpr
        ⟨p.core, hEntry, hDestination⟩
      exact hNe (Option.some.inj (hSome.symm.trans hIndex))

/-! ## Completing an assignment -/

omit [DecidableEq Location] in
/-- The queue after its first assignment is done. -/
theorem Queue.pop {j : Nat} {rest : List Nat} {p : PendingAssignment Location}
    (hQ : Queue (fun _ _ => False) r) (hReady : r.ready = j :: rest)
    (hj : r.pending[j]? = some p)
    (hPending : r'.pending =
      r.pending.set j { p with queued := false, pending := false })
    (hRest : r'.ready = rest) (E : Location → Prop)
    (hNone : ∀ l, r.nPendingSources l = none → r'.nPendingSources l = none)
    (hBack : ∀ l, r'.nPendingSources l = none →
      r.nPendingSources l = none ∨ E l) :
    Queue (fun _ l => E l) r' := by
  have hNodup := hQ.nodup
  rw [hReady] at hNodup
  obtain ⟨hNotIn, hNodupRest⟩ := List.nodup_cons.mp hNodup
  have hIn : ∀ k, k ≠ j → (k ∈ r.ready ↔ k ∈ rest) := by
    intro k hk
    rw [hReady, List.mem_cons]
    exact ⟨fun h => h.resolve_left hk, .inr⟩
  refine
    { nodup := hRest ▸ hNodupRest
      queued_iff := fun k q hk => ?_
      ready_free := fun k hk => ?_
      free_ready := fun k q hk hp hFree hNot => ?_ }
  · rw [hPending] at hk
    rw [hRest]
    rcases getElem?_set_cases hk with ⟨rfl, rfl⟩ | ⟨hne, hOld⟩
    · exact ⟨nofun, fun h => absurd h hNotIn⟩
    · rw [← hIn k hne]
      exact hQ.queued_iff k q hOld
  · rw [hRest] at hk
    have hne : k ≠ j := fun h => hNotIn (h ▸ hk)
    obtain ⟨q, hOld, hp, hFree⟩ := hQ.ready_free k ((hIn k hne).mpr hk)
    refine ⟨q, ?_, hp, hNone _ hFree⟩
    rw [hPending, List.getElem?_set_ne (Ne.symm hne)]
    exact hOld
  · rw [hPending] at hk
    rw [hRest]
    rcases getElem?_set_cases hk with ⟨rfl, rfl⟩ | ⟨hne, hOld⟩
    · exact absurd hp nofun
    · rw [← hIn k hne]
      exact hQ.free_ready k q hOld hp ((hBack _ hFree).resolve_right hNot) id

/-- The maps after an assignment is done. -/
theorem Tables.complete {j : Nat} {e : PendingAssignment Location}
    (hT : Tables r) (hj : r.entries[j]? = some e)
    (hEntries : r'.entries = r.entries.set j { e with pending := false })
    (hSources : ∀ l, r'.nPendingSources l =
      if readers r'.entries l = 0 then none else some (readers r'.entries l))
    (hBySource : ∀ l users, r'.assignmentsBySource l = some users →
      r.assignmentsBySource l = some users ∧ readers r'.entries l ≠ 0)
    (hKeep : ∀ l, readers r'.entries l ≠ 0 →
      r'.assignmentsBySource l = r.assignmentsBySource l)
    (hByDestination : r'.assignmentByDestination = r.assignmentByDestination) :
    Tables r' := by
  have hDestinations : r'.entries.map PendingAssignment.destination =
      r.entries.map PendingAssignment.destination := by
    rw [hEntries]
    exact map_set_of_eq PendingAssignment.destination _ hj rfl
  have hDestination : ∀ (k : Nat) (l : Location),
      (∃ e', r'.entries[k]? = some e' ∧ e'.destination = l) ↔
        ∃ e', r.entries[k]? = some e' ∧ e'.destination = l := by
    intro k l
    have hMap := congrArg (fun ds => ds[k]?) hDestinations
    simp only [List.getElem?_map] at hMap
    constructor
    · rintro ⟨e', hk, hl⟩
      rw [hk] at hMap
      obtain ⟨e'', hk', hl'⟩ := Option.map_eq_some_iff.mp hMap.symm
      exact ⟨e'', hk', hl'.trans hl⟩
    · rintro ⟨e', hk, hl⟩
      rw [hk] at hMap
      obtain ⟨e'', hk', hl'⟩ := Option.map_eq_some_iff.mp hMap
      exact ⟨e'', hk', hl'.trans hl⟩
  refine
    { destinations := ?_
      byDestination := fun l k => ?_
      sources := hSources
      users_nodup := fun l users h => hT.users_nodup l users (hBySource l users h).1
      users_lt := fun l users h u hu => ?_
      users_live := fun l users h => (hBySource l users h).2
      users_mem := fun k e' hk hp => ?_ }
  · rw [hDestinations]
    exact hT.destinations
  · rw [hByDestination, hDestination]
    exact hT.byDestination l k
  · rw [hEntries, List.length_set]
    exact hT.users_lt l users (hBySource l users h).1 u hu
  · have hRead : readers r'.entries e'.sourceLocation ≠ 0 := fun h =>
      readers_eq_zero.mp h e' (List.mem_of_getElem? hk) hp rfl
    rw [hKeep _ hRead]
    rw [hEntries] at hk
    rcases getElem?_set_cases hk with ⟨rfl, rfl⟩ | ⟨-, hOld⟩
    · exact absurd hp nofun
    · exact hT.users_mem k e' hOld hp

/-- The state in which the count of the source is taken down. -/
def carriedOut (r : Resolver Location) (j : Nat) (rest : List Nat)
    (p : PendingAssignment Location) : Resolver Location :=
  { r with
    ready := rest
    pending := r.pending.set j { p with queued := false, pending := false }
    nPending := r.nPending - 1
    result := { r.result with moves := r.result.moves ++ [makeMove p] } }

/-- The source of the assignment has readers left. -/
def counted (r : Resolver Location) (j : Nat) (rest : List Nat)
    (p : PendingAssignment Location) (count : Nat) : Resolver Location :=
  { r.carriedOut j rest p with
    nPendingSources := put r.nPendingSources p.sourceLocation count }

/-- The source of the assignment has no readers left. -/
def freed (r : Resolver Location) (j : Nat) (rest : List Nat)
    (p : PendingAssignment Location) : Resolver Location :=
  { r.carriedOut j rest p with
    nPendingSources := erase r.nPendingSources p.sourceLocation
    assignmentsBySource := erase r.assignmentsBySource p.sourceLocation }

section CarriedOut

variable {j : Nat} {rest : List Nat} {p : PendingAssignment Location}

omit [DecidableEq Location] in
theorem entries_carriedOut (r : Resolver Location) (j : Nat) (rest : List Nat)
    (p : PendingAssignment Location) :
    (r.carriedOut j rest p).entries =
      r.entries.set j { p.core with pending := false } := by
  show (r.pending.set j _).map PendingAssignment.core = _
  rw [List.map_set]
  rfl

theorem readers_carriedOut (rest : List Nat) (hj : r.pending[j]? = some p)
    (hp : p.pending = true) (l : Location) :
    readers (r.carriedOut j rest p).entries l = readers r.entries l -
      (if p.sourceLocation = l then 1 else 0) := by
  rw [entries_carriedOut, readers_set (entries_getElem? hj)]
  show readers r.entries l -
    (if p.pending && decide (p.sourceLocation = l) then 1 else 0) + 0 = _
  simp [hp]

theorem Tables.readers_ne_zero (hj : r.pending[j]? = some p)
    (hp : p.pending = true) : readers r.entries p.sourceLocation ≠ 0 := by
  intro h
  have hMem : p.core ∈ r.entries := List.mem_of_getElem? (entries_getElem? hj)
  exact readers_eq_zero.mp h p.core hMem hp rfl

theorem stepReady_eq (rest : List Nat) (hT : Tables r) (hj : r.pending[j]? = some p)
    (hp : p.pending = true) :
    r.stepReady j rest =
      some (if readers r.entries p.sourceLocation - 1 ≠ 0 then
        r.counted j rest p (readers r.entries p.sourceLocation - 1)
      else
        (r.freed j rest p).sourceBecameFree p.sourceLocation) := by
  have hLt := (List.getElem?_eq_some_iff.mp hj).1
  have hReads := Tables.readers_ne_zero hj hp
  have hCount := hT.sources_eq_some hReads
  have hPos : 0 < readers r.entries p.sourceLocation := by omega
  have hSelf : (r.pending.set j { p with queued := false })[j]? =
      some { p with queued := false } := List.getElem?_set_self hLt
  unfold stepReady
  rw [bind_of_eq_some hj]
  dsimp only
  unfold complete pushMove
  rw [bind_of_eq_some hSelf, check_bind hp]
  dsimp only
  rw [bind_of_eq_some hCount, check_bind hPos, List.set_set]
  unfold counted freed carriedOut
  split <;> rfl

/-- The maps and the queue where the source has readers left. -/
theorem counted_spec (hT : Tables r) (hQ : Queue (fun _ _ => False) r)
    (hReady : r.ready = j :: rest) (hj : r.pending[j]? = some p)
    (hp : p.pending = true) {count : Nat}
    (hCount : readers r.entries p.sourceLocation - 1 = count)
    (hMore : count ≠ 0) :
    Tables (r.counted j rest p count) ∧
      Queue (fun _ _ => False) (r.counted j rest p count) := by
  have hReaders := readers_carriedOut rest hj hp
  have hTables : Tables (r.counted j rest p count) := by
    refine hT.complete (entries_getElem? hj) (entries_carriedOut r j rest p) (fun l => ?_)
      (fun l users h => ⟨h, ?_⟩) (fun l _ => rfl) rfl
    · show put r.nPendingSources p.sourceLocation count l =
        if readers (r.carriedOut j rest p).entries l = 0 then none
        else some (readers (r.carriedOut j rest p).entries l)
      rw [hReaders l]
      unfold put
      by_cases hl : l = p.sourceLocation
      · subst hl
        rw [if_pos rfl, if_pos rfl, hCount, if_neg hMore]
      · rw [if_neg hl, if_neg (Ne.symm hl), Nat.sub_zero]
        exact hT.sources l
    · show readers (r.carriedOut j rest p).entries l ≠ 0
      have hLive := hT.users_live l users h
      rw [hReaders l]
      by_cases hl : p.sourceLocation = l
      · subst hl
        rw [if_pos rfl, hCount]
        exact hMore
      · rw [if_neg hl, Nat.sub_zero]
        exact hLive
  refine ⟨hTables, hQ.pop hReady hj rfl rfl (fun _ => False) (fun l h => ?_)
    (fun l h => .inl ?_)⟩
  · rw [hTables.sources_eq_none]
    show readers (r.carriedOut j rest p).entries l = 0
    rw [hReaders l, hT.sources_eq_none.mp h]
    exact Nat.zero_sub _
  · rw [hTables.sources_eq_none] at h
    have h' : readers (r.carriedOut j rest p).entries l = 0 := h
    rw [hReaders l] at h'
    rw [hT.sources_eq_none]
    by_cases hl : p.sourceLocation = l
    · subst hl
      rw [if_pos rfl, hCount] at h'
      exact absurd h' hMore
    · rwa [if_neg hl, Nat.sub_zero] at h'

/-- The maps and the queue where the source has become free. -/
theorem freed_spec (hT : Tables r) (hQ : Queue (fun _ _ => False) r)
    (hReady : r.ready = j :: rest) (hj : r.pending[j]? = some p)
    (hp : p.pending = true)
    (hLast : readers r.entries p.sourceLocation - 1 = 0) :
    Tables (r.freed j rest p) ∧
      Queue (fun _ l => l = p.sourceLocation) (r.freed j rest p) := by
  have hReaders := readers_carriedOut rest hj hp
  have hErase : ∀ l, l ≠ p.sourceLocation →
      (r.freed j rest p).assignmentsBySource l = r.assignmentsBySource l :=
    fun l hl => if_neg hl
  have hSource : ∀ l, l ≠ p.sourceLocation →
      (r.freed j rest p).nPendingSources l = r.nPendingSources l :=
    fun l hl => if_neg hl
  constructor
  · refine hT.complete (entries_getElem? hj) (entries_carriedOut r j rest p) (fun l => ?_)
      (fun l users h => ?_) (fun l hl => hErase l fun h => ?_) rfl
    · show (r.freed j rest p).nPendingSources l =
        if readers (r.carriedOut j rest p).entries l = 0 then none
        else some (readers (r.carriedOut j rest p).entries l)
      rw [hReaders l]
      by_cases hl : l = p.sourceLocation
      · subst hl
        rw [if_pos rfl, if_pos hLast]
        exact if_pos rfl
      · rw [hSource l hl, if_neg (Ne.symm hl), Nat.sub_zero]
        exact hT.sources l
    · have hl : l ≠ p.sourceLocation := by
        rintro rfl
        exact absurd (h.symm.trans (if_pos rfl)) nofun
      rw [hErase l hl] at h
      refine ⟨h, ?_⟩
      show readers (r.carriedOut j rest p).entries l ≠ 0
      rw [hReaders l, if_neg (Ne.symm hl)]
      exact hT.users_live l users h
    · subst h
      apply hl
      show readers (r.carriedOut j rest p).entries p.sourceLocation = 0
      rw [hReaders, if_pos rfl]
      exact hLast
  · refine hQ.pop hReady hj rfl rfl (fun l => l = p.sourceLocation)
      (fun l h => ?_) (fun l h => ?_)
    · by_cases hl : l = p.sourceLocation
      · exact if_pos hl
      · rw [hSource l hl]
        exact h
    · by_cases hl : l = p.sourceLocation
      · exact .inr hl
      · rw [hSource l hl] at h
        exact .inl h

end CarriedOut

/-- What a round does that has an assignment to carry out. -/
structure Emits (r r' : Resolver Location) (j : Nat)
    (e : PendingAssignment Location) : Prop where
  entries_eq : r'.entries = r.entries.set j { e with pending := false }
  result_eq : r'.result = { r.result with
    moves := r.result.moves ++ [makeMove e] }
  nPending_eq : r'.nPending = r.nPending - 1
  candidates_eq : r'.cycleCandidates = r.cycleCandidates
  calls_eq : r'.scratchCalls = r.scratchCalls

/-- A round with an assignment that is ready carries it out. -/
theorem stepReady_spec {j : Nat} {rest : List Nat} (hT : Tables r)
    (hQ : Queue (fun _ _ => False) r) (hReady : r.ready = j :: rest) :
    ∃ e r', r.entries[j]? = some e ∧ e.pending = true ∧
      readers r.entries e.destination = 0 ∧ r.stepReady j rest = some r' ∧
      Emits r r' j e ∧ Tables r' ∧ Queue (fun _ _ => False) r' := by
  obtain ⟨p, hj, hp, hFree⟩ :=
    hQ.ready_free j (hReady ▸ List.mem_cons_self ..)
  have hStep := stepReady_eq rest hT hj hp
  have hUnread := hT.sources_eq_none.mp hFree
  by_cases hLast : readers r.entries p.sourceLocation - 1 = 0
  · obtain ⟨hTables, hQueue⟩ := freed_spec hT hQ hReady hj hp hLast
    obtain ⟨hSame, hDone⟩ := sourceBecameFree_spec hTables hQueue
    rw [if_neg (not_not.mpr hLast)] at hStep
    exact ⟨p.core, _, entries_getElem? hj, hp, hUnread, hStep,
      { entries_eq := hSame.entries_eq.trans (entries_carriedOut r j rest p)
        result_eq := hSame.result_eq
        nPending_eq := hSame.nPending_eq
        candidates_eq := hSame.candidates_eq
        calls_eq := hSame.calls_eq }, hTables.of_same hSame, hDone⟩
  · obtain ⟨hTables, hQueue⟩ := counted_spec hT hQ hReady hj hp rfl hLast
    rw [if_pos hLast] at hStep
    exact ⟨p.core, _, entries_getElem? hj, hp, hUnread, hStep,
      { entries_eq := entries_carriedOut r j rest p
        result_eq := rfl
        nPending_eq := rfl
        candidates_eq := rfl
        calls_eq := rfl }, hTables, hQueue⟩

end Resolver

end CloverVM.Jit
