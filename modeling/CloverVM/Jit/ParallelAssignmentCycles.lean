import CloverVM.Jit.ParallelAssignmentTables

/-!
# Cycles of the parallel assignment resolver

Where nothing is ready every location has one reader.  The reader of a cycle
that is broken reads the scratch location from then on, and what it read is
free.
-/

namespace CloverVM.Jit

open CloverVM.Machine
open CloverVM.Machine.ParallelMoves

variable {Location : Type} [DecidableEq Location]

namespace Resolver

variable {r r' : Resolver Location}

/-- The assignment is part of a cycle, as the resolver tests it. -/
def Candidate (r : Resolver Location) (p : PendingAssignment Location) : Prop :=
  p.pending = true ∧ (r.nPendingSources p.destination).isSome = true

theorem nextCycle_spec :
    ∀ candidates : List Nat, (∀ i ∈ candidates, i < r.pending.length) →
      (∃ i ∈ candidates, ∃ p, r.pending[i]? = some p ∧ r.Candidate p) →
      ∃ j rest p, r.nextCycle candidates = some (j, rest) ∧
        r.pending[j]? = some p ∧ r.Candidate p ∧
        rest.length < candidates.length ∧ (∀ i ∈ rest, i ∈ candidates) ∧
        ∀ i ∈ candidates, i = j ∨ i ∈ rest ∨
          ∀ q, r.pending[i]? = some q → ¬ r.Candidate q := by
  intro candidates
  induction candidates with
  | nil =>
      rintro - ⟨i, hi, -⟩
      exact absurd hi List.not_mem_nil
  | cons index rest ih =>
      intro hLt hSome
      obtain ⟨p, hIndex⟩ : ∃ p, r.pending[index]? = some p :=
        ⟨_, List.getElem?_eq_getElem (hLt index (List.mem_cons_self ..))⟩
      by_cases hCandidate : r.Candidate p
      · refine ⟨index, rest, p, ?_, hIndex, hCandidate, Nat.lt_succ_self _,
          fun i hi => List.mem_cons_of_mem _ hi, fun i hi => ?_⟩
        · unfold nextCycle
          rw [hIndex]
          dsimp only
          rw [hCandidate.1, hCandidate.2]
          rfl
        · rcases List.mem_cons.mp hi with rfl | hRest
          · exact .inl rfl
          · exact .inr (.inl hRest)
      · obtain ⟨i, hi, q, hq, hCand⟩ := hSome
        have hRest : i ∈ rest := by
          rcases List.mem_cons.mp hi with rfl | hRest
          · obtain rfl := Option.some.inj (hIndex.symm.trans hq)
            exact absurd hCand hCandidate
          · exact hRest
        obtain ⟨j, rest', p', hNext, hj, hCand', hShort, hSub, hCover⟩ :=
          ih (fun i hi => hLt i (List.mem_cons_of_mem _ hi))
            ⟨i, hRest, q, hq, hCand⟩
        refine ⟨j, rest', p', ?_, hj, hCand', Nat.lt_succ_of_lt hShort,
          fun i hi => List.mem_cons_of_mem _ (hSub i hi), fun i hi => ?_⟩
        · unfold nextCycle
          rw [hIndex]
          have hNot : ¬ (p.pending &&
              (r.nPendingSources p.destination).isSome) = true := by
            rw [Bool.and_eq_true]
            exact hCandidate
          dsimp only
          rw [if_neg hNot]
          exact hNext
        · rcases List.mem_cons.mp hi with rfl | hOld
          · refine .inr (.inr fun q hq => ?_)
            obtain rfl := Option.some.inj (hIndex.symm.trans hq)
            exact hCandidate
          · exact hCover i hOld

/-! ## Users of a location -/

section Users

variable {oldSource scratch : Location}

/-- Users that do not read the location are left alone. -/
theorem repointUsers_none (oldSource scratch : Location) (scratchMove : Nat) :
    ∀ (users : List Nat) (pending : List (PendingAssignment Location)),
      (∀ i ∈ users, ∀ p, pending[i]? = some p → p.pending = true →
        p.sourceLocation ≠ oldSource) →
      repointUsers oldSource scratch scratchMove users pending =
        (pending, [], 0) := by
  intro users
  induction users with
  | nil => exact fun pending _ => rfl
  | cons index users ih =>
      intro pending hNone
      have hRest := ih pending fun i hi =>
        hNone i (List.mem_cons_of_mem _ hi)
      unfold repointUsers
      cases hIndex : pending[index]? with
      | none => exact hRest
      | some p =>
          have hSkip : (!p.pending || decide (p.sourceLocation ≠ oldSource)) =
              true := by
            have hNot := hNone index (List.mem_cons_self ..) p hIndex
            cases hp : p.pending with
            | false => rfl
            | true => simpa using hNot hp
          dsimp only
          rw [if_pos hSkip]
          exact hRest

/-- Where one user reads the location, that one is moved. -/
theorem repointUsers_single (scratchMove : Nat) (hne : scratch ≠ oldSource)
    {j : Nat}
    {p : PendingAssignment Location} (hp : p.pending = true)
    (hSource : p.sourceLocation = oldSource) :
    ∀ (users : List Nat) (pending : List (PendingAssignment Location)),
      pending[j]? = some p → j ∈ users →
      (∀ i ∈ users, i ≠ j → ∀ q, pending[i]? = some q → q.pending = true →
        q.sourceLocation ≠ oldSource) →
      repointUsers oldSource scratch scratchMove users pending =
        (pending.set j { p with
          source := .move scratchMove
          sourceLocation := scratch }, [j], 1) := by
  intro users
  induction users with
  | nil => exact fun pending _ hj => absurd hj List.not_mem_nil
  | cons index users ih =>
      intro pending hj hIn hOthers
      by_cases hIndex : index = j
      · subst hIndex
        have hTake : ¬ (!p.pending || decide (p.sourceLocation ≠ oldSource)) =
            true := by
          rw [hp, hSource]
          simp
        have hRest := repointUsers_none oldSource scratch scratchMove users
          (pending.set index { p with
            source := .move scratchMove
            sourceLocation := scratch }) (by
            intro i hi q hq hqp
            rcases getElem?_set_cases hq with ⟨-, rfl⟩ | ⟨hNe, hOld⟩
            · exact hne
            · exact hOthers i (List.mem_cons_of_mem _ hi) hNe q hOld hqp)
        unfold repointUsers
        rw [hj]
        dsimp only
        rw [if_neg hTake, hRest]
      · have hInRest : j ∈ users :=
          (List.mem_cons.mp hIn).resolve_left (Ne.symm hIndex)
        have hRest := ih pending hj hInRest fun i hi =>
          hOthers i (List.mem_cons_of_mem _ hi)
        unfold repointUsers
        cases hGet : pending[index]? with
        | none => exact hRest
        | some q =>
            have hSkip : (!q.pending || decide (q.sourceLocation ≠ oldSource)) =
                true := by
              have hNot := hOthers index (List.mem_cons_self ..) hIndex q hGet
              cases hqp : q.pending with
              | false => rfl
              | true => simpa using hNot hqp
            dsimp only
            rw [if_pos hSkip]
            exact hRest

end Users

/-! ## Breaking a cycle -/

/-- The assignment that reads the scratch location from now on. -/
def redirect (p : PendingAssignment Location) (scratch : Location)
    (scratchMove : Nat) : PendingAssignment Location :=
  { p with source := .move scratchMove, sourceLocation := scratch }

/-- The state in which the value of a cycle has been saved. -/
def redirected (r : Resolver Location) (j : Nat)
    (p : PendingAssignment Location) (scratch : Location) :
    Resolver Location :=
  { r.pushMove (scratchMove p scratch) with
    pending := r.pending.set j (redirect p scratch r.result.moves.length)
    assignmentsBySource :=
      put (erase r.assignmentsBySource p.sourceLocation) scratch [j]
    nPendingSources :=
      put (erase r.nPendingSources p.sourceLocation) scratch 1 }

/-- Where nothing is ready: the assignment is the one reader of its source, and
nobody reads the scratch location. -/
structure OneReader (r : Resolver Location) (j : Nat)
    (p : PendingAssignment Location) (scratch : Location) : Prop where
  get : r.pending[j]? = some p
  pending : p.pending = true
  only : ∀ (i : Nat) (q : PendingAssignment Location),
    r.pending[i]? = some q → q.pending = true →
      q.sourceLocation = p.sourceLocation → i = j
  scratch_unread : readers r.entries scratch = 0

section Break

variable {j : Nat} {p : PendingAssignment Location} {scratch : Location}

theorem OneReader.source_ne (h : OneReader r j p scratch) :
    scratch ≠ p.sourceLocation := by
  intro hSame
  apply Tables.readers_ne_zero h.get h.pending
  rw [← hSame]
  exact h.scratch_unread

/-- Without the assignment nobody would read its source. -/
theorem OneReader.readers_eq_one (h : OneReader r j p scratch) :
    readers r.entries p.sourceLocation = 1 := by
  have hPos := Tables.readers_ne_zero h.get h.pending
  have hSet := readers_carriedOut [] h.get h.pending p.sourceLocation
  rw [if_pos rfl] at hSet
  have hZero : readers (r.carriedOut j [] p).entries p.sourceLocation = 0 := by
    rw [readers_eq_zero]
    intro e he hp hSource
    obtain ⟨k, hk⟩ := List.mem_iff_getElem?.mp he
    rw [entries_carriedOut] at hk
    rcases getElem?_set_cases hk with ⟨-, rfl⟩ | ⟨hNe, hOld⟩
    · exact absurd hp nofun
    · obtain ⟨q, hq, rfl⟩ := exists_of_entries hOld
      exact hNe (h.only k q hq hp hSource)
  omega

theorem entries_redirected (r : Resolver Location) (j : Nat)
    (p : PendingAssignment Location) (scratch : Location) :
    (r.redirected j p scratch).entries =
      r.entries.set j (redirect p.core scratch r.result.moves.length) := by
  show (r.pending.set j _).map PendingAssignment.core = _
  rw [List.map_set]
  rfl

theorem readers_redirected (h : OneReader r j p scratch) (l : Location) :
    readers (r.redirected j p scratch).entries l =
      if l = scratch then 1
      else if l = p.sourceLocation then 0 else readers r.entries l := by
  have hOne := h.readers_eq_one
  have hNe := h.source_ne
  have hUnread := h.scratch_unread
  have hp := h.pending
  rw [entries_redirected, readers_set (entries_getElem? h.get)]
  show readers r.entries l -
      (if p.pending && decide (p.sourceLocation = l) then 1 else 0) +
    (if p.pending && decide (scratch = l) then 1 else 0) = _
  rw [hp]
  simp only [Bool.true_and, decide_eq_true_eq]
  by_cases hScratch : l = scratch
  · subst hScratch
    rw [if_pos rfl, if_pos rfl, if_neg (Ne.symm hNe), hUnread]
  · rw [if_neg hScratch, if_neg (Ne.symm hScratch)]
    by_cases hSource : l = p.sourceLocation
    · subst hSource
      rw [if_pos rfl, if_pos rfl, hOne]
    · rw [if_neg hSource, if_neg (Ne.symm hSource)]
      rfl

theorem redirected_bySource (h : OneReader r j p scratch) (l : Location) :
    (r.redirected j p scratch).assignmentsBySource l =
      if l = scratch then some [j]
      else if l = p.sourceLocation then none
      else r.assignmentsBySource l :=
  rfl

theorem redirected_sources (r : Resolver Location) (j : Nat)
    (p : PendingAssignment Location) (scratch l : Location) :
    (r.redirected j p scratch).nPendingSources l =
      if l = scratch then some 1
      else if l = p.sourceLocation then none else r.nPendingSources l :=
  rfl

theorem Tables.redirected (hT : Tables r) (h : OneReader r j p scratch) :
    Tables (r.redirected j p scratch) := by
  have hEntry := entries_getElem? h.get
  have hReaders := readers_redirected h
  have hDestinations : (r.redirected j p scratch).entries.map
      PendingAssignment.destination =
      r.entries.map PendingAssignment.destination := by
    rw [entries_redirected]
    exact map_set_of_eq PendingAssignment.destination _ hEntry rfl
  have hGet : ∀ (k : Nat) (e : PendingAssignment Location),
      (r.redirected j p scratch).entries[k]? = some e →
      (k = j ∧ e = redirect p.core scratch r.result.moves.length) ∨
        (k ≠ j ∧ r.entries[k]? = some e) := by
    intro k e hk
    rw [entries_redirected] at hk
    exact getElem?_set_cases hk
  refine
    { destinations := hDestinations ▸ hT.destinations
      byDestination := fun l k => ?_
      sources := fun l => ?_
      users_nodup := fun l users hUsers => ?_
      users_lt := fun l users hUsers u hu => ?_
      users_live := fun l users hUsers => ?_
      users_mem := fun k e hk hp => ?_ }
  · have hMap : ((r.redirected j p scratch).entries.map
        PendingAssignment.destination)[k]? =
        (r.entries.map PendingAssignment.destination)[k]? := by
      rw [hDestinations]
    rw [List.getElem?_map, List.getElem?_map] at hMap
    have hOld := hT.byDestination l k
    have hIff : ∀ es : List (PendingAssignment Location),
        (∃ e, es[k]? = some e ∧ e.destination = l) ↔
          (es[k]?).map PendingAssignment.destination = some l :=
      fun es => Option.map_eq_some_iff.symm
    rw [hIff] at hOld ⊢
    rw [hMap]
    exact hOld
  · rw [redirected_sources, hReaders l]
    by_cases hScratch : l = scratch
    · rw [if_pos hScratch, if_pos hScratch]
      rfl
    · rw [if_neg hScratch, if_neg hScratch]
      by_cases hSource : l = p.sourceLocation
      · rw [if_pos hSource, if_pos hSource]
        rfl
      · rw [if_neg hSource, if_neg hSource]
        exact hT.sources l
  · rw [redirected_bySource h] at hUsers
    split at hUsers
    · obtain rfl := Option.some.inj hUsers
      exact List.nodup_singleton j
    · split at hUsers
      · exact absurd hUsers nofun
      · exact hT.users_nodup l users hUsers
  · rw [entries_redirected, List.length_set]
    rw [redirected_bySource h] at hUsers
    split at hUsers
    · obtain rfl := Option.some.inj hUsers
      obtain rfl := List.mem_singleton.mp hu
      exact (List.getElem?_eq_some_iff.mp hEntry).1
    · split at hUsers
      · exact absurd hUsers nofun
      · exact hT.users_lt l users hUsers u hu
  · rw [hReaders l]
    rw [redirected_bySource h] at hUsers
    split at hUsers
    · rename_i hScratch
      rw [if_pos hScratch]
      exact Nat.one_ne_zero
    · rename_i hScratch
      rw [if_neg hScratch]
      split at hUsers
      · exact absurd hUsers nofun
      · rename_i hSource
        rw [if_neg hSource]
        exact hT.users_live l users hUsers
  · rcases hGet k e hk with ⟨rfl, rfl⟩ | ⟨hNe, hOld⟩
    · refine ⟨[k], ?_, List.mem_singleton.mpr rfl⟩
      rw [redirected_bySource h]
      exact if_pos rfl
    · obtain ⟨users, hUsers, hIn⟩ := hT.users_mem k e hOld hp
      refine ⟨users, ?_, hIn⟩
      have hScratch : e.sourceLocation ≠ scratch :=
        readers_eq_zero.mp h.scratch_unread e (List.mem_of_getElem? hOld) hp
      have hSource : e.sourceLocation ≠ p.sourceLocation := by
        obtain ⟨q, hq, rfl⟩ := exists_of_entries hOld
        exact fun hSame => hNe (h.only k q hq hp hSame)
      rw [redirected_bySource h, if_neg hScratch, if_neg hSource]
      exact hUsers

theorem Queue.redirected (hQ : Queue (fun _ _ => False) r)
    (hReady : r.ready = []) (h : OneReader r j p scratch) :
    Queue (fun _ l => l = p.sourceLocation) (r.redirected j p scratch) := by
  have hEmpty : (r.redirected j p scratch).ready = [] := hReady
  have hQueued : ∀ (k : Nat) (q : PendingAssignment Location),
      r.pending[k]? = some q → ¬ q.queued = true := by
    intro k q hk
    rw [hQ.queued_iff k q hk, hReady]
    exact List.not_mem_nil
  refine
    { nodup := hEmpty ▸ List.nodup_nil
      queued_iff := fun k q hk => ?_
      ready_free := fun k hk => absurd (hEmpty ▸ hk) List.not_mem_nil
      free_ready := fun k q hk hp hFree hNot => ?_ }
  · rw [hEmpty]
    refine ⟨fun hq => ?_, fun hIn => absurd hIn List.not_mem_nil⟩
    rcases getElem?_set_cases hk with ⟨-, rfl⟩ | ⟨-, hOld⟩
    · exact absurd hq (hQueued j p h.get)
    · exact absurd hq (hQueued k q hOld)
  · -- what is free now but was not before is the source of the cycle
    rw [redirected_sources] at hFree
    have hOldFree : r.nPendingSources q.destination = none := by
      by_cases hScratch : q.destination = scratch
      · rw [if_pos hScratch] at hFree
        exact absurd hFree nofun
      · rwa [if_neg hScratch, if_neg hNot] at hFree
    have hNotIn : ∀ (i : Nat) (q' : PendingAssignment Location),
        r.pending[i]? = some q' → q'.pending = true →
        q'.destination = q.destination → False := by
      intro i q' hi hp' hSame
      have hIn := hQ.free_ready i q' hi hp' (hSame ▸ hOldFree) id
      rw [hReady] at hIn
      exact absurd hIn List.not_mem_nil
    rcases getElem?_set_cases hk with ⟨rfl, rfl⟩ | ⟨-, hOld⟩
    · exact (hNotIn k p h.get hp rfl).elim
    · exact (hNotIn k q hOld hp rfl).elim

/-- What a round does that breaks a cycle. -/
structure SavesValue (r r' : Resolver Location) (j : Nat)
    (e : PendingAssignment Location) (scratch : Location) : Prop where
  entries_eq : r'.entries =
    r.entries.set j (redirect e scratch r.result.moves.length)
  result_eq : r'.result = { r.result with
    moves := r.result.moves ++ [scratchMove e scratch] }
  nPending_eq : r'.nPending = r.nPending
  candidates_eq : r'.cycleCandidates = r.cycleCandidates
  calls_eq : r'.scratchCalls = r.scratchCalls

theorem breakCycle_spec (hT : Tables r) (hQ : Queue (fun _ _ => False) r)
    (hReady : r.ready = []) (h : OneReader r j p scratch) :
    ∃ r', r.breakCycle j scratch = some r' ∧
      SavesValue r r' j p.core scratch ∧ Tables r' ∧
      Queue (fun _ _ => False) r' := by
  have hEntry := entries_getElem? h.get
  have hOne := h.readers_eq_one
  obtain ⟨users, hUsers, hIn⟩ := hT.users_mem j p.core hEntry h.pending
  have hUsers' : r.assignmentsBySource p.sourceLocation = some users := hUsers
  have hMoved := repointUsers_single r.result.moves.length
    h.source_ne h.pending rfl users r.pending h.get hIn
    fun i _ hNe q hq hp hSource => hNe (h.only i q hq hp hSource)
  have hCount : r.nPendingSources p.sourceLocation = some 1 := by
    rw [hT.sources_eq_some (by omega), hOne]
  have hNoUsers : r.assignmentsBySource scratch = none := by
    cases hScratch : r.assignmentsBySource scratch with
    | none => rfl
    | some others =>
        have hLive := hT.users_live scratch others hScratch
        exact absurd h.scratch_unread hLive
  have hNoCount : r.nPendingSources scratch = none :=
    hT.sources_eq_none.mpr h.scratch_unread
  have hBySource : (erase r.assignmentsBySource p.sourceLocation) scratch =
      none := by
    unfold erase
    rw [if_neg h.source_ne]
    exact hNoUsers
  have hSources : emplace (erase r.nPendingSources p.sourceLocation) scratch 1 =
      put (erase r.nPendingSources p.sourceLocation) scratch 1 := by
    have hNone : (erase r.nPendingSources p.sourceLocation) scratch = none := by
      unfold erase
      rw [if_neg h.source_ne]
      exact hNoCount
    unfold emplace
    rw [hNone]
    rfl
  have hBreak : r.breakCycle j scratch = some
      ((r.redirected j p scratch).sourceBecameFree p.sourceLocation) := by
    unfold breakCycle pushMove
    rw [bind_of_eq_some h.get]
    dsimp only
    rw [bind_of_eq_some hUsers', hMoved]
    dsimp only
    rw [bind_of_eq_some hCount, check_bind rfl, hBySource, hSources]
    rfl
  obtain ⟨hSame, hQueue⟩ :=
    sourceBecameFree_spec (hT.redirected h) (hQ.redirected hReady h)
  exact ⟨_, hBreak,
    { entries_eq := hSame.entries_eq.trans (entries_redirected r j p scratch)
      result_eq := hSame.result_eq
      nPending_eq := hSame.nPending_eq
      candidates_eq := hSame.candidates_eq
      calls_eq := hSame.calls_eq },
    (hT.redirected h).of_same hSame, hQueue⟩

end Break

end Resolver

end CloverVM.Jit
