import CloverVM.Jit.ParallelAssignmentTables

/-!
# The constructor of the parallel assignment resolver

The constructor enters the assignments that move something into the tables, one
after the other, and then queues those that are ready.
-/

namespace CloverVM.Jit

open CloverVM.Machine
open CloverVM.Machine.ParallelMoves

variable {Location : Type} [DecidableEq Location]

namespace Resolver

variable {r r' : Resolver Location}

/-- What the resolver holds for an assignment at the start. -/
def startEntry (index : Nat) (a : ParallelAssignment Location) :
    PendingAssignment Location :=
  { originalIndex := index
    source := .originalAssignment index
    sourceLocation := a.source
    destination := a.destination
    registerClass := a.registerClass
    pending := true
    queued := false }

/-- The assignments that move something, counted from `index` on. -/
def startEntries (index : Nat) :
    List (ParallelAssignment Location) → List (PendingAssignment Location)
  | [] => []
  | a :: rest =>
      if a.source = a.destination then startEntries (index + 1) rest
      else startEntry index a :: startEntries (index + 1) rest

/-- The assignments that move nothing, counted from `index` on. -/
def aliasingFrom (index : Nat) : List (ParallelAssignment Location) → List Nat
  | [] => []
  | a :: rest =>
      if a.source = a.destination then index :: aliasingFrom (index + 1) rest
      else aliasingFrom (index + 1) rest

theorem mem_startEntries :
    ∀ (assignments : List (ParallelAssignment Location)) (index : Nat)
      (e : PendingAssignment Location), e ∈ startEntries index assignments →
      ∃ i a, assignments[i]? = some a ∧ a.source ≠ a.destination ∧
        e = startEntry (index + i) a := by
  intro assignments
  induction assignments with
  | nil => exact fun index e he => absurd he List.not_mem_nil
  | cons a rest ih =>
      intro index e he
      unfold startEntries at he
      have hRest : e ∈ startEntries (index + 1) rest →
          ∃ i a', (a :: rest)[i]? = some a' ∧ a'.source ≠ a'.destination ∧
            e = startEntry (index + i) a' := by
        intro h
        obtain ⟨i, a', hi, hMoves, rfl⟩ := ih (index + 1) e h
        refine ⟨i + 1, a', hi, hMoves, ?_⟩
        rw [Nat.add_assoc, Nat.add_comm 1 i]
      split at he
      · exact hRest he
      · rename_i hMoves
        rcases List.mem_cons.mp he with rfl | hOld
        · exact ⟨0, a, rfl, hMoves, rfl⟩
        · exact hRest hOld

theorem startEntry_mem :
    ∀ (assignments : List (ParallelAssignment Location)) (index i : Nat)
      (a : ParallelAssignment Location), assignments[i]? = some a →
      a.source ≠ a.destination →
      startEntry (index + i) a ∈ startEntries index assignments := by
  intro assignments
  induction assignments with
  | nil => exact fun index i a h => absurd h nofun
  | cons b rest ih =>
      intro index i a hi hMoves
      unfold startEntries
      cases i with
      | zero =>
          obtain rfl := Option.some.inj hi
          rw [if_neg hMoves]
          exact List.mem_cons_self ..
      | succ i =>
          have hRest := ih (index + 1) i a hi hMoves
          rw [Nat.add_assoc, Nat.add_comm 1 i] at hRest
          split
          · exact hRest
          · exact List.mem_cons_of_mem _ hRest

/-- A resolver while its constructor runs. -/
structure Collecting (r : Resolver Location) : Prop where
  tables : Tables r
  fresh : ∀ p ∈ r.pending, p.pending = true ∧ p.queued = false
  ready : r.ready = []
  candidates : r.cycleCandidates = List.range r.pending.length
  moves : r.result.moves = []
  calls : r.scratchCalls = []

theorem Collecting.entries_eq (h : Collecting r) : r.entries = r.pending := by
  unfold entries
  conv_rhs => rw [← List.map_id r.pending]
  refine List.map_congr_left fun p hp => ?_
  have hQueued := (h.fresh p hp).2
  unfold PendingAssignment.core
  rw [← hQueued]
  rfl

theorem collecting_empty : Collecting (empty : Resolver Location) :=
  { tables :=
      { destinations := List.nodup_nil
        byDestination := fun l j => ⟨nofun, fun ⟨_, h, _⟩ => nomatch h⟩
        sources := fun _ => rfl
        users_nodup := nofun
        users_lt := nofun
        users_live := nofun
        users_mem := nofun }
    fresh := nofun
    ready := rfl
    candidates := rfl
    moves := rfl
    calls := rfl }

/-- The resolver with one more assignment. -/
def withEntry (r : Resolver Location) (index : Nat)
    (a : ParallelAssignment Location) : Resolver Location :=
  { r with
    pending := r.pending ++ [startEntry index a]
    nPendingSources := put r.nPendingSources a.source
      ((r.nPendingSources a.source).getD 0 + 1)
    assignmentsBySource := put r.assignmentsBySource a.source
      ((r.assignmentsBySource a.source).getD [] ++ [r.pending.length])
    assignmentByDestination :=
      put r.assignmentByDestination a.destination r.pending.length
    cycleCandidates := r.cycleCandidates ++ [r.pending.length] }

section Collect

variable {index : Nat} {a : ParallelAssignment Location}

theorem entries_withEntry (r : Resolver Location) (index : Nat)
    (a : ParallelAssignment Location) :
    (r.withEntry index a).entries = r.entries ++ [startEntry index a] := by
  show (r.pending ++ [startEntry index a]).map PendingAssignment.core = _
  rw [List.map_append]
  rfl

theorem readers_withEntry (r : Resolver Location) (index : Nat)
    (a : ParallelAssignment Location) (l : Location) :
    readers (r.withEntry index a).entries l =
      readers r.entries l + if l = a.source then 1 else 0 := by
  rw [entries_withEntry]
  unfold readers
  rw [List.countP_append, List.countP_singleton]
  show _ + (if true && decide (a.source = l) then 1 else 0) = _
  by_cases hl : l = a.source
  · subst hl
    simp
  · simp [hl, Ne.symm hl]

theorem length_entries (r : Resolver Location) :
    r.entries.length = r.pending.length :=
  List.length_map _

theorem Tables.withEntry (hT : Tables r)
    (hNew : a.destination ∉ r.entries.map PendingAssignment.destination) :
    Tables (r.withEntry index a) := by
  have hReaders := readers_withEntry r index a
  have hLength := length_entries r
  have hGet : ∀ (k : Nat) (e : PendingAssignment Location),
      (r.withEntry index a).entries[k]? = some e ↔
        r.entries[k]? = some e ∨
          (k = r.pending.length ∧ e = startEntry index a) := by
    intro k e
    rw [entries_withEntry, List.getElem?_append, hLength]
    split
    · rename_i hLt
      exact ⟨.inl, fun h => h.resolve_right fun h' => by omega⟩
    · rename_i hGe
      have hNone : r.entries[k]? = none :=
        List.getElem?_eq_none (by rw [hLength]; omega)
      rw [hNone]
      by_cases hk : k = r.pending.length
      · subst hk
        rw [Nat.sub_self]
        constructor
        · exact fun h => .inr ⟨rfl, (Option.some.inj h).symm⟩
        · rintro (h | ⟨-, rfl⟩)
          · exact absurd h nofun
          · rfl
      · have hPast : ([startEntry index a] : List _)[k - r.pending.length]? =
            none := List.getElem?_eq_none (by
          show 1 ≤ _
          omega)
        rw [hPast]
        exact ⟨nofun, fun h => by
          rcases h with h | h
          · exact absurd h nofun
          · exact absurd h.1 hk⟩
  have hUsers : ∀ l users, (r.withEntry index a).assignmentsBySource l =
      some users →
      (l = a.source ∧ users = (r.assignmentsBySource a.source).getD [] ++
        [r.pending.length]) ∨
      (l ≠ a.source ∧ r.assignmentsBySource l = some users) := by
    intro l users h
    have h' : (if l = a.source then
        some ((r.assignmentsBySource a.source).getD [] ++ [r.pending.length])
      else r.assignmentsBySource l) = some users := h
    by_cases hl : l = a.source
    · rw [if_pos hl] at h'
      exact .inl ⟨hl, (Option.some.inj h').symm⟩
    · rw [if_neg hl] at h'
      exact .inr ⟨hl, h'⟩
  have hOldLt : ∀ u ∈ (r.assignmentsBySource a.source).getD [],
      u < r.pending.length := by
    intro u hu
    cases hBy : r.assignmentsBySource a.source with
    | none =>
        rw [hBy] at hu
        exact absurd hu List.not_mem_nil
    | some users =>
        rw [hBy] at hu
        exact hLength ▸ hT.users_lt _ users hBy u hu
  refine
    { destinations := ?_
      byDestination := fun l k => ?_
      sources := fun l => ?_
      users_nodup := fun l users h => ?_
      users_lt := fun l users h u hu => ?_
      users_live := fun l users h => ?_
      users_mem := fun k e hk hp => ?_ }
  · rw [entries_withEntry, List.map_append]
    refine List.nodup_append.mpr ⟨hT.destinations, List.nodup_singleton _, ?_⟩
    rintro d hd d' hd' rfl
    have hLast : d = a.destination := List.mem_singleton.mp hd'
    exact hNew (hLast ▸ hd)
  · show (if l = a.destination then some r.pending.length
      else r.assignmentByDestination l) = some k ↔ _
    simp only [hGet]
    by_cases hl : l = a.destination
    · subst hl
      rw [if_pos rfl]
      constructor
      · intro h
        exact ⟨startEntry index a, .inr ⟨(Option.some.inj h).symm, rfl⟩, rfl⟩
      · rintro ⟨e, hOld | ⟨rfl, -⟩, hd⟩
        · exact absurd (List.mem_map.mpr ⟨e, List.mem_of_getElem? hOld, hd⟩)
            hNew
        · rfl
    · rw [if_neg hl, hT.byDestination l k]
      constructor
      · rintro ⟨e, hOld, hd⟩
        exact ⟨e, .inl hOld, hd⟩
      · rintro ⟨e, hOld | ⟨-, rfl⟩, hd⟩
        · exact ⟨e, hOld, hd⟩
        · exact absurd hd (Ne.symm hl)
  · rw [hReaders l]
    show (if l = a.source then
        some ((r.nPendingSources a.source).getD 0 + 1)
      else r.nPendingSources l) = _
    by_cases hl : l = a.source
    · subst hl
      rw [if_pos rfl, if_pos rfl, if_neg (Nat.succ_ne_zero _), hT.sources]
      split
      · rename_i hZero
        rw [hZero]
        rfl
      · rfl
    · rw [if_neg hl, if_neg hl]
      exact hT.sources l
  · rcases hUsers l users h with ⟨rfl, rfl⟩ | ⟨-, hOld⟩
    · refine List.nodup_append.mpr ⟨?_, List.nodup_singleton _, ?_⟩
      · cases hBy : r.assignmentsBySource a.source with
        | none => exact List.nodup_nil
        | some users => exact hT.users_nodup _ users hBy
      · rintro u hu u' hu' rfl
        have := hOldLt u hu
        rw [List.mem_singleton.mp hu'] at this
        omega
    · exact hT.users_nodup l users hOld
  · rw [entries_withEntry, List.length_append, hLength]
    show u < r.pending.length + 1
    rcases hUsers l users h with ⟨rfl, rfl⟩ | ⟨-, hOld⟩
    · rcases List.mem_append.mp hu with hOld | hLast
      · have := hOldLt u hOld
        omega
      · rw [List.mem_singleton.mp hLast]
        omega
    · have := hT.users_lt l users hOld u hu
      omega
  · rw [hReaders l]
    rcases hUsers l users h with ⟨rfl, -⟩ | ⟨-, hOld⟩
    · rw [if_pos rfl]
      exact Nat.succ_ne_zero _
    · have := hT.users_live l users hOld
      omega
  · have hPut : (r.withEntry index a).assignmentsBySource a.source =
        some ((r.assignmentsBySource a.source).getD [] ++
          [r.pending.length]) := if_pos rfl
    rcases (hGet k e).mp hk with hOld | ⟨rfl, rfl⟩
    · obtain ⟨users, hBy, hIn⟩ := hT.users_mem k e hOld hp
      by_cases hl : e.sourceLocation = a.source
      · rw [hl] at hBy ⊢
        rw [hBy] at hPut
        exact ⟨_, hPut, List.mem_append_left _ hIn⟩
      · exact ⟨users, (if_neg hl).trans hBy, hIn⟩
    · exact ⟨_, hPut, List.mem_append_right _ (List.mem_singleton.mpr rfl)⟩

theorem Collecting.withEntry (h : Collecting r)
    (hNew : a.destination ∉ r.entries.map PendingAssignment.destination) :
    Collecting (r.withEntry index a) := by
  refine
    { tables := h.tables.withEntry hNew
      fresh := fun p hp => ?_
      ready := h.ready
      candidates := ?_
      moves := h.moves
      calls := h.calls }
  · rcases List.mem_append.mp hp with hOld | hLast
    · exact h.fresh p hOld
    · obtain rfl := List.mem_singleton.mp hLast
      exact ⟨rfl, rfl⟩
  · show r.cycleCandidates ++ [r.pending.length] =
      List.range (r.pending ++ [startEntry index a]).length
    rw [h.candidates, List.length_append]
    exact List.range_succ.symm

end Collect

theorem addAssignments_spec :
    ∀ (assignments : List (ParallelAssignment Location)) (index : Nat)
      (r : Resolver Location), Collecting r →
      ((r.entries ++ startEntries index assignments).map
        PendingAssignment.destination).Nodup →
      ∃ r', r.addAssignments index assignments = some r' ∧ Collecting r' ∧
        r'.pending = r.pending ++ startEntries index assignments ∧
        r'.result.aliasingAssignments = r.result.aliasingAssignments ++
          aliasingFrom index assignments := by
  intro assignments
  induction assignments with
  | nil =>
      intro index r h _
      exact ⟨r, rfl, h, (List.append_nil _).symm, (List.append_nil _).symm⟩
  | cons a rest ih =>
      intro index r h hNodup
      unfold addAssignments addAssignment
      unfold startEntries aliasingFrom
      unfold startEntries at hNodup
      by_cases hSame : a.source = a.destination
      · rw [if_pos hSame] at hNodup
        rw [if_pos hSame, if_pos hSame, if_pos hSame]
        let r' : Resolver Location := { r with result := { r.result with
          aliasingAssignments := r.result.aliasingAssignments ++ [index] } }
        have h' : Collecting r' :=
          ⟨⟨h.tables.destinations, h.tables.byDestination, h.tables.sources,
            h.tables.users_nodup, h.tables.users_lt, h.tables.users_live,
            h.tables.users_mem⟩, h.fresh, h.ready, h.candidates, h.moves,
            h.calls⟩
        obtain ⟨r'', hAdd, hCollect, hPending, hAliasing⟩ :=
          ih (index + 1) r' h' hNodup
        refine ⟨r'', hAdd, hCollect, hPending, ?_⟩
        rw [hAliasing]
        exact List.append_assoc ..
      · rw [if_neg hSame] at hNodup
        rw [if_neg hSame, if_neg hSame, if_neg hSame]
        have hNew : a.destination ∉
            r.entries.map PendingAssignment.destination := by
          rw [List.map_append, List.nodup_append] at hNodup
          intro hIn
          exact hNodup.2.2 _ hIn a.destination (List.mem_cons_self ..) rfl
        have hNone : (r.assignmentByDestination a.destination).isNone := by
          cases hBy : r.assignmentByDestination a.destination with
          | none => rfl
          | some j =>
              obtain ⟨e, he, hd⟩ :=
                (h.tables.byDestination a.destination j).mp hBy
              exact absurd
                (List.mem_map.mpr ⟨e, List.mem_of_getElem? he, hd⟩) hNew
        have hNodup' : (((r.withEntry index a).entries ++
            startEntries (index + 1) rest).map
            PendingAssignment.destination).Nodup := by
          rw [entries_withEntry, List.append_assoc]
          exact hNodup
        obtain ⟨r'', hAdd, hCollect, hPending, hAliasing⟩ :=
          ih (index + 1) (r.withEntry index a) (h.withEntry hNew) hNodup'
        refine ⟨r'', ?_, hCollect, ?_, hAliasing⟩
        · rw [check_bind hNone]
          exact hAdd
        · rw [hPending]
          exact List.append_assoc ..

omit [DecidableEq Location] in
theorem foldl_enqueueIfReady_spec :
    ∀ (indices : List Nat) (E : Nat → Location → Prop)
      (r : Resolver Location), Queue E r →
      SameTables r (indices.foldl enqueueIfReady r) ∧
        Queue (fun j l => E j l ∧ j ∉ indices)
          (indices.foldl enqueueIfReady r) := by
  intro indices
  induction indices with
  | nil =>
      intro E r hQ
      exact ⟨SameTables.refl r,
        hQ.weaken fun _ _ _ hE => ⟨hE, List.not_mem_nil⟩⟩
  | cons index indices ih =>
      intro E r hQ
      obtain ⟨hSame, hQueue⟩ := enqueueIfReady_spec hQ index
      obtain ⟨hSame', hQueue'⟩ := ih _ _ hQueue
      refine ⟨hSame.trans hSame', hQueue'.weaken fun j p _ hE => ?_⟩
      refine ⟨hE.1.1, fun hIn => ?_⟩
      rcases List.mem_cons.mp hIn with rfl | hRest
      · exact hE.1.2 rfl
      · exact hE.2 hRest

/-- The state the constructor leaves: every assignment that moves something is
there, and those that may be carried out are in the queue. -/
structure Made (assignments : List (ParallelAssignment Location))
    (r : Resolver Location) : Prop where
  tables : Tables r
  queue : Queue (fun _ _ => False) r
  entries_eq : r.entries = startEntries 0 assignments
  nPending_eq : r.nPending = r.entries.length
  candidates_eq : r.cycleCandidates = List.range r.pending.length
  moves_eq : r.result.moves = []
  aliasing_eq : r.result.aliasingAssignments = aliasingFrom 0 assignments
  calls_eq : r.scratchCalls = []

theorem make_spec {assignments : List (ParallelAssignment Location)}
    (hNodup : ((startEntries 0 assignments).map
      PendingAssignment.destination).Nodup) :
    ∃ r, make assignments = some r ∧ Made assignments r := by
  obtain ⟨r, hAdd, h, hPending, hAliasing⟩ :=
    addAssignments_spec assignments 0 empty collecting_empty hNodup
  let counted : Resolver Location := { r with nPending := r.pending.length }
  have hQueue : Queue (fun _ _ => True) counted := by
    have hReady : counted.ready = [] := h.ready
    refine
      { nodup := hReady ▸ List.nodup_nil
        queued_iff := fun j p hj => ?_
        ready_free := fun j hj => absurd (hReady ▸ hj) List.not_mem_nil
        free_ready := fun j p _ _ _ hNot => absurd trivial hNot }
    rw [hReady, (h.fresh p (List.mem_of_getElem? hj)).2]
    exact ⟨nofun, fun hIn => absurd hIn List.not_mem_nil⟩
  obtain ⟨hSame, hQ⟩ := foldl_enqueueIfReady_spec
    (List.range r.pending.length) _ counted hQueue
  have hEntries : counted.entries = startEntries 0 assignments :=
    h.entries_eq.trans hPending
  have hTables : Tables counted :=
    ⟨h.tables.destinations, h.tables.byDestination, h.tables.sources,
      h.tables.users_nodup, h.tables.users_lt, h.tables.users_live,
      h.tables.users_mem⟩
  have hLength : ((List.range r.pending.length).foldl enqueueIfReady
      counted).pending.length = r.pending.length := by
    rw [← length_entries, hSame.entries_eq, length_entries]
  refine ⟨(List.range r.pending.length).foldl enqueueIfReady counted, ?_, ?_⟩
  · unfold make
    rw [bind_of_eq_some hAdd]
    rfl
  · exact
      { tables := hTables.of_same hSame
        queue := hQ.weaken fun j p hj hE => by
          apply hE.2
          rw [List.mem_range, ← hLength]
          exact (List.getElem?_eq_some_iff.mp hj).1
        entries_eq := hSame.entries_eq.trans hEntries
        nPending_eq := by
          rw [hSame.nPending_eq, hSame.entries_eq, length_entries]
        candidates_eq := by
          rw [hSame.candidates_eq, hLength]
          exact h.candidates
        moves_eq := by
          rw [hSame.result_eq]
          exact h.moves
        aliasing_eq := by
          rw [hSame.result_eq]
          exact hAliasing
        calls_eq := by
          rw [hSame.calls_eq]
          exact h.calls }

end Resolver

end CloverVM.Jit
