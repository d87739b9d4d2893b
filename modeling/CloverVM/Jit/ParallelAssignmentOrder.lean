import CloverVM.Jit.ParallelAssignmentCycles
import CloverVM.Jit.ParallelAssignmentMake

/-!
# The order of parallel assignments is right

The rounds of the resolver are the two rules for parallel moves: an assignment
that is ready is carried out, and where none is a value is saved to the scratch
location.  What the rules promise is then promised by the resolver.
-/

namespace CloverVM.Jit

open CloverVM.Machine
open CloverVM.Machine.ParallelMoves

variable {Location : Type} [DecidableEq Location]

/-- The moves of an order, as pairs of locations. -/
def movePairs (moves : List (OrderedMove Location)) :
    List (Location × Location) :=
  moves.map fun m => (m.sourceLocation, m.destination)

/-- The destination `d` is to get the value of another location `s`. -/
def AssignedFrom (assignments : List (ParallelAssignment Location))
    (d s : Location) : Prop :=
  ∃ a ∈ assignments, a.destination = d ∧ a.source = s ∧ s ≠ d

/-- The location takes part in a cycle of more than one assignment. -/
def OnAssignmentCycle (assignments : List (ParallelAssignment Location))
    (x : Location) : Prop :=
  Relation.TransGen (AssignedFrom assignments) x x

/-- Of locations on cycles: they are on the same one. -/
def SameCycle (assignments : List (ParallelAssignment Location))
    (x y : Location) : Prop :=
  Relation.ReflTransGen (AssignedFrom assignments) x y

/-- The original assignment that the source of a move goes back to. -/
inductive Traces (moves : List (OrderedMove Location)) :
    OrderedMoveSource → Nat → Prop where
  | original (i : Nat) : Traces moves (.originalAssignment i) i
  | move {k i : Nat} {m : OrderedMove Location} (hMove : moves[k]? = some m)
      (hTrace : Traces moves m.source i) : Traces moves (.move k) i

/-- A move carries the value of the original assignment that its source goes
back to.  It completes that assignment, or it saves the value. -/
structure Carries (assignments : List (ParallelAssignment Location))
    (scratch : Location) (moves : List (OrderedMove Location)) (k : Nat)
    (m : OrderedMove Location) (i : Nat)
    (a : ParallelAssignment Location) : Prop where
  assignment_eq : assignments[i]? = some a
  trace : Traces moves m.source i
  value : ∀ (V : Type) (σ : Location → V),
    execute (movePairs (moves.take k)) σ m.sourceLocation = σ a.source
  registerClass_eq : m.registerClass = a.registerClass
  target : (m.originalAssignmentIndex = some i ∧
      m.destination = a.destination) ∨
    (m.originalAssignmentIndex = none ∧ m.destination = scratch)

/-- What is promised of the result of ordering the assignments. -/
structure Ordered (assignments : List (ParallelAssignment Location))
    (scratch : Location) (r : Resolver Location) : Prop where
  values : ∀ (V : Type) (σ : Location → V), ∀ a ∈ assignments,
    execute (movePairs r.result.moves) σ a.destination = σ a.source
  frame : ∀ (V : Type) (σ : Location → V) (l : Location),
    l ∉ assignments.map ParallelAssignment.destination → l ≠ scratch →
      execute (movePairs r.result.moves) σ l = σ l
  /-- A call of the callback is for a value of a cycle. -/
  call : ∀ (k n : Nat) (c : RegisterClass),
    r.scratchCalls[k]? = some (c, n) → ∃ m, r.result.moves[n]? = some m ∧
      m.originalAssignmentIndex = none ∧ m.registerClass = c ∧
      OnAssignmentCycle assignments m.sourceLocation
  /-- For every cycle there is one call. -/
  callOnce : ∀ x, OnAssignmentCycle assignments x → ∃! k : Nat, ∃ c n m,
    r.scratchCalls[k]? = some (c, n) ∧ r.result.moves[n]? = some m ∧
      SameCycle assignments x m.sourceLocation
  carries : ∀ (k : Nat) (m : OrderedMove Location),
    r.result.moves[k]? = some m →
      ∃ i a, Carries assignments scratch r.result.moves k m i a
  aliasing : r.result.aliasingAssignments =
    Resolver.aliasingFrom 0 assignments

/-! ## Tasks -/

/-- The task that an entry of the resolver stands for. -/
def taskOf (assignments : List (ParallelAssignment Location))
    (e : PendingAssignment Location) : MoveTask Location :=
  { origin := match assignments[e.originalIndex]? with
      | some a => a.source
      | none => e.sourceLocation
    source := e.sourceLocation
    destination := e.destination
    pending := e.pending }

def tasksOf (assignments : List (ParallelAssignment Location))
    (entries : List (PendingAssignment Location)) : List (MoveTask Location) :=
  entries.map (taskOf assignments)

def startTasks (assignments : List (ParallelAssignment Location)) :
    List (MoveTask Location) :=
  tasksOf assignments (Resolver.startEntries 0 assignments)

section Tasks

variable {assignments : List (ParallelAssignment Location)}
  {entries : List (PendingAssignment Location)} {scratch : Location}

omit [DecidableEq Location] in
theorem mem_tasksOf {t : MoveTask Location} :
    t ∈ tasksOf assignments entries ↔
      ∃ e ∈ entries, taskOf assignments e = t :=
  List.mem_map

theorem unread_iff {l : Location} :
    Unread (tasksOf assignments entries) l ↔ readers entries l = 0 := by
  rw [Resolver.readers_eq_zero]
  constructor
  · intro h e he
    exact h (taskOf assignments e) (mem_tasksOf.mpr ⟨e, he, rfl⟩)
  · rintro h t ht
    obtain ⟨e, he, rfl⟩ := mem_tasksOf.mp ht
    exact h e he

omit [DecidableEq Location] in
theorem tasksOf_getElem? {j : Nat} {e : PendingAssignment Location}
    (h : entries[j]? = some e) :
    (tasksOf assignments entries)[j]? = some (taskOf assignments e) := by
  unfold tasksOf
  rw [List.getElem?_map, h]
  rfl

omit [DecidableEq Location] in
theorem taskOf_origin {e : PendingAssignment Location}
    {a : ParallelAssignment Location}
    (h : assignments[e.originalIndex]? = some a) :
    (taskOf assignments e).origin = a.source := by
  unfold taskOf
  rw [h]

/-- The tasks of the start: the assignments that move something. -/
theorem mem_startTasks {t : MoveTask Location} :
    t ∈ startTasks assignments ↔ ∃ a ∈ assignments,
      a.source ≠ a.destination ∧ t = ⟨a.source, a.source, a.destination, true⟩ := by
  unfold startTasks
  rw [mem_tasksOf]
  constructor
  · rintro ⟨e, he, rfl⟩
    obtain ⟨i, a, hi, hMoves, rfl⟩ := Resolver.mem_startEntries _ _ _ he
    refine ⟨a, List.mem_of_getElem? hi, hMoves, ?_⟩
    rw [Nat.zero_add]
    unfold taskOf Resolver.startEntry
    dsimp only
    rw [hi]
  · rintro ⟨a, ha, hMoves, rfl⟩
    obtain ⟨i, hi⟩ := List.mem_iff_getElem?.mp ha
    have hMem := Resolver.startEntry_mem assignments 0 i a hi hMoves
    rw [Nat.zero_add] at hMem
    refine ⟨_, hMem, ?_⟩
    unfold taskOf Resolver.startEntry
    dsimp only
    rw [hi]

theorem startEntries_destinations_sublist :
    ∀ (assignments : List (ParallelAssignment Location)) (index : Nat),
      ((Resolver.startEntries index assignments).map
        PendingAssignment.destination).Sublist
        (assignments.map ParallelAssignment.destination) := by
  intro assignments
  induction assignments with
  | nil => exact fun index => List.Sublist.refl _
  | cons a rest ih =>
      intro index
      unfold Resolver.startEntries
      split
      · exact (ih (index + 1)).cons _
      · exact (ih (index + 1)).cons_cons _

theorem fresh_startTasks
    (hDistinct : (assignments.map ParallelAssignment.destination).Nodup)
    (hOutside : ∀ a ∈ assignments,
      a.source ≠ scratch ∧ a.destination ≠ scratch) :
    Fresh scratch (startTasks assignments) := by
  refine
    { pending := fun t ht => ?_
      source_eq := fun t ht => ?_
      moves := fun t ht => ?_
      destinations := ?_
      origin_ne := fun t ht => ?_
      destination_ne := fun t ht => ?_ }
  · obtain ⟨a, -, -, rfl⟩ := mem_startTasks.mp ht
    rfl
  · obtain ⟨a, -, -, rfl⟩ := mem_startTasks.mp ht
    rfl
  · obtain ⟨a, -, hMoves, rfl⟩ := mem_startTasks.mp ht
    exact hMoves
  · have hMap : (startTasks assignments).map MoveTask.destination =
        (Resolver.startEntries 0 assignments).map
          PendingAssignment.destination := List.map_map
    rw [hMap]
    exact hDistinct.sublist (startEntries_destinations_sublist assignments 0)
  · obtain ⟨a, ha, -, rfl⟩ := mem_startTasks.mp ht
    exact (hOutside a ha).1
  · obtain ⟨a, ha, -, rfl⟩ := mem_startTasks.mp ht
    exact (hOutside a ha).2

theorem reads_startTasks :
    Reads (startTasks assignments) = AssignedFrom assignments := by
  funext d s
  apply propext
  constructor
  · rintro ⟨t, ht, rfl, rfl⟩
    obtain ⟨a, ha, hMoves, rfl⟩ := mem_startTasks.mp ht
    exact ⟨a, ha, rfl, rfl, hMoves⟩
  · rintro ⟨a, ha, rfl, rfl, hMoves⟩
    exact ⟨_, mem_startTasks.mpr ⟨a, ha, hMoves, rfl⟩, rfl, rfl⟩

end Tasks

/-! ## Rounds -/

/-- What holds between the rounds of the loop.  The entries are tasks of a run
of the two rules; `saves` are the sources of its saving moves. -/
structure Progress (assignments : List (ParallelAssignment Location))
    (scratch : Location) (r : Resolver Location) (saves : List Location) :
    Prop where
  tables : r.Tables
  queue : r.Queue fun _ _ => False
  nPending_eq : r.nPending = r.entries.countP PendingAssignment.pending
  candidates_lt : ∀ i ∈ r.cycleCandidates, i < r.pending.length
  /-- What is no candidate any more reads the scratch location. -/
  candidates : ∀ (j : Nat) (e : PendingAssignment Location),
    r.entries[j]? = some e → e.pending = true →
      e.sourceLocation = scratch ∨ j ∈ r.cycleCandidates
  entry : ∀ e ∈ r.entries, ∃ a, assignments[e.originalIndex]? = some a ∧
    e.destination = a.destination ∧ e.registerClass = a.registerClass ∧
    Traces r.result.moves e.source e.originalIndex
  run : Run scratch (startTasks assignments) (tasksOf assignments r.entries)
    (movePairs r.result.moves) saves
  carries : ∀ (k : Nat) (m : OrderedMove Location),
    r.result.moves[k]? = some m →
      ∃ i a, Carries assignments scratch r.result.moves k m i a
  /-- The calls of the callback are the saving moves. -/
  calls : List.Forall₂ (fun call s => ∃ m,
    r.result.moves[call.2]? = some m ∧ m.originalAssignmentIndex = none ∧
      m.registerClass = call.1 ∧ m.sourceLocation = s) r.scratchCalls saves
  aliasing : r.result.aliasingAssignments =
    Resolver.aliasingFrom 0 assignments

section Rounds

variable {assignments : List (ParallelAssignment Location)}
  {scratch : Location} {r r' : Resolver Location} {saves : List Location}

omit [DecidableEq Location] in
theorem Traces.append {moves : List (OrderedMove Location)}
    {source : OrderedMoveSource} {i : Nat} (h : Traces moves source i)
    (more : List (OrderedMove Location)) : Traces (moves ++ more) source i := by
  induction h with
  | original i => exact .original i
  | move hMove hTrace ih =>
      refine .move ?_ ih
      rw [List.getElem?_append_left (List.getElem?_eq_some_iff.mp hMove).1]
      exact hMove

omit [DecidableEq Location] in
theorem movePairs_append (moves : List (OrderedMove Location))
    (m : OrderedMove Location) :
    movePairs (moves ++ [m]) =
      movePairs moves ++ [(m.sourceLocation, m.destination)] :=
  List.map_append

/-- More moves at the end do not change what a move carries. -/
theorem Carries.append {moves : List (OrderedMove Location)} {k i : Nat}
    {m : OrderedMove Location} {a : ParallelAssignment Location}
    (h : Carries assignments scratch moves k m i a)
    (hk : moves[k]? = some m) (more : List (OrderedMove Location)) :
    Carries assignments scratch (moves ++ more) k m i a := by
  have hLt := (List.getElem?_eq_some_iff.mp hk).1
  refine { h with trace := h.trace.append more, value := ?_ }
  intro V σ
  rw [List.take_append_of_le_length (Nat.le_of_lt hLt)]
  exact h.value V σ

/-- The next move carries the value of the entry it is made of. -/
theorem Progress.carries_next (h : Progress assignments scratch r saves)
    (hStart : Fresh scratch (startTasks assignments))
    {e : PendingAssignment Location} (he : e ∈ r.entries)
    (hp : e.pending = true) {m : OrderedMove Location}
    (hSource : m.source = e.source)
    (hLocation : m.sourceLocation = e.sourceLocation)
    (hClass : m.registerClass = e.registerClass)
    (hTarget : (m.originalAssignmentIndex = some e.originalIndex ∧
        m.destination = e.destination) ∨
      (m.originalAssignmentIndex = none ∧ m.destination = scratch)) :
    ∃ i a, Carries assignments scratch (r.result.moves ++ [m])
      r.result.moves.length m i a := by
  obtain ⟨a, ha, hDestination, hRegister, hTrace⟩ := h.entry e he
  refine ⟨e.originalIndex, a, ?_⟩
  refine
    { assignment_eq := ha
      trace := ?_
      value := fun V σ => ?_
      registerClass_eq := hClass.trans hRegister
      target := ?_ }
  · rw [hSource]
    exact hTrace.append _
  · rw [List.take_left, hLocation, ← taskOf_origin ha]
    exact (h.run.correct hStart σ).pending (taskOf assignments e)
      (mem_tasksOf.mpr ⟨e, he, rfl⟩) hp
  · rw [← hDestination]
    exact hTarget

/-- Every move of a list with one more move. -/
theorem Progress.carries_append (h : Progress assignments scratch r saves)
    {m : OrderedMove Location}
    (hLast : ∃ i a, Carries assignments scratch (r.result.moves ++ [m])
      r.result.moves.length m i a) :
    ∀ (k : Nat) (n : OrderedMove Location),
      (r.result.moves ++ [m])[k]? = some n →
        ∃ i a, Carries assignments scratch (r.result.moves ++ [m]) k n i a := by
  intro k n hk
  rcases Nat.lt_or_ge k r.result.moves.length with hLt | hGe
  · rw [List.getElem?_append_left hLt] at hk
    obtain ⟨i, a, hCarries⟩ := h.carries k n hk
    exact ⟨i, a, hCarries.append hk [m]⟩
  · have hLength := (List.getElem?_eq_some_iff.mp hk).1
    rw [List.length_append, List.length_singleton] at hLength
    obtain rfl : k = r.result.moves.length := by omega
    rw [List.getElem?_concat_length] at hk
    obtain rfl := Option.some.inj hk
    exact hLast

/-- The calls of a list of moves with one more move. -/
theorem Progress.calls_append (h : Progress assignments scratch r saves)
    (m : OrderedMove Location) :
    List.Forall₂ (fun call s => ∃ n,
      (r.result.moves ++ [m])[call.2]? = some n ∧
        n.originalAssignmentIndex = none ∧ n.registerClass = call.1 ∧
        n.sourceLocation = s) r.scratchCalls saves := by
  refine h.calls.imp fun call s ⟨n, hn, hRest⟩ => ⟨n, ?_, hRest⟩
  rw [List.getElem?_append_left (List.getElem?_eq_some_iff.mp hn).1]
  exact hn

omit [DecidableEq Location] in
theorem tasksOf_set {entries : List (PendingAssignment Location)} {j : Nat}
    {new : PendingAssignment Location} {t : MoveTask Location}
    (hNew : taskOf assignments new = t) :
    tasksOf assignments (entries.set j new) =
      (tasksOf assignments entries).set j t := by
  unfold tasksOf
  rw [List.map_set, hNew]

/-- A round that carries out an assignment. -/
theorem Progress.emit (h : Progress assignments scratch r saves)
    (hStart : Fresh scratch (startTasks assignments)) {j : Nat}
    {e : PendingAssignment Location} (hj : r.entries[j]? = some e)
    (hp : e.pending = true) (hUnread : readers r.entries e.destination = 0)
    (hEmits : r.Emits r' j e) (hTables : r'.Tables)
    (hQueue : r'.Queue fun _ _ => False) :
    Progress assignments scratch r' saves := by
  have hMem : e ∈ r.entries := List.mem_of_getElem? hj
  have hMoves : r'.result.moves =
      r.result.moves ++ [Resolver.makeMove e] := by
    rw [hEmits.result_eq]
  have hLength : r'.pending.length = r.pending.length := by
    rw [← Resolver.length_entries, hEmits.entries_eq, List.length_set,
      Resolver.length_entries]
  refine
    { tables := hTables
      queue := hQueue
      nPending_eq := ?_
      candidates_lt := ?_
      candidates := fun k e' hk hp' => ?_
      entry := fun e' he' => ?_
      run := ?_
      carries := ?_
      calls := ?_
      aliasing := ?_ }
  · obtain ⟨hLt, hGet⟩ := List.getElem?_eq_some_iff.mp hj
    rw [hEmits.nPending_eq, hEmits.entries_eq, List.countP_set hLt, hGet, hp,
      h.nPending_eq]
    rfl
  · rw [hEmits.candidates_eq, hLength]
    exact h.candidates_lt
  · rw [hEmits.candidates_eq]
    rw [hEmits.entries_eq] at hk
    rcases getElem?_set_cases hk with ⟨-, rfl⟩ | ⟨-, hOld⟩
    · exact absurd hp' nofun
    · exact h.candidates k e' hOld hp'
  · rw [hEmits.entries_eq] at he'
    rw [hMoves]
    rcases List.mem_or_eq_of_mem_set he' with hOld | rfl
    · obtain ⟨a, ha, hd, hc, hTrace⟩ := h.entry e' hOld
      exact ⟨a, ha, hd, hc, hTrace.append _⟩
    · obtain ⟨a, ha, hd, hc, hTrace⟩ := h.entry e hMem
      exact ⟨a, ha, hd, hc, hTrace.append _⟩
  · rw [hMoves, hEmits.entries_eq, movePairs_append,
      tasksOf_set (t := { taskOf assignments e with pending := false }) rfl]
    exact h.run.emit (tasksOf_getElem? hj) hp (unread_iff.mpr hUnread)
  · rw [hMoves]
    exact h.carries_append (h.carries_next hStart hMem hp rfl rfl rfl
      (.inl ⟨rfl, rfl⟩))
  · rw [hMoves, hEmits.calls_eq]
    exact h.calls_append _
  · rw [hEmits.result_eq]
    exact h.aliasing

/-- A round that saves the value of a cycle. -/
theorem Progress.save (h : Progress assignments scratch r saves)
    (hStart : Fresh scratch (startTasks assignments)) {j : Nat}
    {rest : List Nat} {e : PendingAssignment Location}
    (hj : r.entries[j]? = some e) (hp : e.pending = true)
    (hBlocked : Blocked (tasksOf assignments r.entries))
    (hRest : ∀ i ∈ rest, i ∈ r.cycleCandidates)
    (hCover : ∀ i ∈ r.cycleCandidates, i = j ∨ i ∈ rest ∨
      ∀ e', r.entries[i]? = some e' → e'.pending = false)
    (hSaves : Resolver.SavesValue { r with
        cycleCandidates := rest
        scratchCalls := r.scratchCalls ++
          [(e.registerClass, r.result.moves.length)] } r' j e scratch)
    (hTables : r'.Tables) (hQueue : r'.Queue fun _ _ => False) :
    Progress assignments scratch r' (saves ++ [e.sourceLocation]) := by
  have hMem : e ∈ r.entries := List.mem_of_getElem? hj
  have hEntries : r'.entries = r.entries.set j
      (Resolver.redirect e scratch r.result.moves.length) := hSaves.entries_eq
  have hMoves : r'.result.moves =
      r.result.moves ++ [Resolver.scratchMove e scratch] := by
    rw [hSaves.result_eq]
  have hLength : r'.pending.length = r.pending.length := by
    rw [← Resolver.length_entries, hEntries, List.length_set,
      Resolver.length_entries]
  refine
    { tables := hTables
      queue := hQueue
      nPending_eq := ?_
      candidates_lt := fun i hi => ?_
      candidates := fun k e' hk hp' => ?_
      entry := fun e' he' => ?_
      run := ?_
      carries := ?_
      calls := ?_
      aliasing := ?_ }
  · obtain ⟨hLt, hGet⟩ := List.getElem?_eq_some_iff.mp hj
    have hPos : 0 < r.entries.countP PendingAssignment.pending :=
      List.countP_pos_iff.mpr ⟨e, hMem, hp⟩
    rw [hSaves.nPending_eq, hEntries, List.countP_set hLt, hGet]
    show r.nPending = _ - (if e.pending = true then 1 else 0) +
      (if e.pending = true then 1 else 0)
    rw [if_pos hp, h.nPending_eq]
    omega
  · rw [hLength]
    rw [hSaves.candidates_eq] at hi
    exact h.candidates_lt i (hRest i hi)
  · rw [hSaves.candidates_eq]
    rw [hEntries] at hk
    rcases getElem?_set_cases hk with ⟨-, rfl⟩ | ⟨hNe, hOld⟩
    · exact .inl rfl
    · rcases h.candidates k e' hOld hp' with hScratch | hIn
      · exact .inl hScratch
      · rcases hCover k hIn with hSame | hInRest | hDone
        · exact absurd hSame hNe
        · exact .inr hInRest
        · exact absurd (hp'.symm.trans (hDone e' hOld)) nofun
  · rw [hEntries] at he'
    rw [hMoves]
    rcases List.mem_or_eq_of_mem_set he' with hOld | rfl
    · obtain ⟨a, ha, hd, hc, hTrace⟩ := h.entry e' hOld
      exact ⟨a, ha, hd, hc, hTrace.append _⟩
    · obtain ⟨a, ha, hd, hc, hTrace⟩ := h.entry e hMem
      refine ⟨a, ha, hd, hc, .move List.getElem?_concat_length ?_⟩
      exact hTrace.append _
  · have hTask : taskOf assignments
        (Resolver.redirect e scratch r.result.moves.length) =
        { taskOf assignments e with source := scratch } := by
      obtain ⟨a, ha, -⟩ := h.entry e hMem
      have hOrigin := taskOf_origin ha
      have hOrigin' := taskOf_origin
        (e := Resolver.redirect e scratch r.result.moves.length) ha
      unfold taskOf at hOrigin hOrigin' ⊢
      simp only at hOrigin hOrigin' ⊢
      rw [hOrigin, hOrigin']
      rfl
    rw [hMoves, hEntries, movePairs_append, tasksOf_set hTask]
    exact h.run.save (tasksOf_getElem? hj) hp hBlocked
  · rw [hMoves]
    exact h.carries_append (h.carries_next hStart hMem hp rfl rfl rfl
      (.inr ⟨rfl, rfl⟩))
  · rw [hMoves, hSaves.calls_eq]
    refine List.rel_append (h.calls_append _) (.cons ?_ .nil)
    exact ⟨_, List.getElem?_concat_length, rfl, rfl, rfl⟩
  · rw [hSaves.result_eq]
    exact h.aliasing

/-- Where nothing is ready all tasks are blocked. -/
theorem Progress.blocked (h : Progress assignments scratch r saves)
    (hReady : r.ready = []) : Blocked (tasksOf assignments r.entries) := by
  intro t ht hp hUnread
  obtain ⟨e, he, rfl⟩ := mem_tasksOf.mp ht
  obtain ⟨j, hj⟩ := List.mem_iff_getElem?.mp he
  obtain ⟨p, hj', rfl⟩ := Resolver.exists_of_entries hj
  have hFree := h.tables.sources_eq_none.mpr (unread_iff.mp hUnread)
  have hIn := h.queue.free_ready j p hj' hp hFree id
  rw [hReady] at hIn
  exact absurd hIn List.not_mem_nil

/-- Where nothing is ready an assignment is the one reader of its source. -/
theorem Progress.oneReader (h : Progress assignments scratch r saves)
    (hStart : Fresh scratch (startTasks assignments))
    (hReady : r.ready = []) {j : Nat} {p : PendingAssignment Location}
    (hj : r.pending[j]? = some p) (hp : p.pending = true) :
    r.OneReader j p scratch := by
  have hBlocked := h.blocked hReady
  have hWf := h.run.wellFormed hStart
  have hTask : ∀ (i : Nat) (q : PendingAssignment Location),
      r.pending[i]? = some q →
        taskOf assignments q.core ∈ tasksOf assignments r.entries :=
    fun i q hi => mem_tasksOf.mpr
      ⟨q.core, List.mem_of_getElem? (Resolver.entries_getElem? hi), rfl⟩
  refine
    { get := hj
      pending := hp
      only := fun i q hi hq hSame => ?_
      scratch_unread := ?_ }
  · have hEq := hBlocked.source_inj hWf (hTask i q hi) hq (hTask j p hj) hp hSame
    have hDestination : q.destination = p.destination :=
      congrArg MoveTask.destination hEq
    have hi' := (h.tables.byDestination p.destination i).mpr
      ⟨q.core, Resolver.entries_getElem? hi, hDestination⟩
    have hj' := (h.tables.byDestination p.destination j).mpr
      ⟨p.core, Resolver.entries_getElem? hj, rfl⟩
    exact Option.some.inj (hi'.symm.trans hj')
  · rw [Resolver.readers_eq_zero]
    intro e he hq
    exact hBlocked.source_ne_scratch hWf (mem_tasksOf.mpr ⟨e, he, rfl⟩) hq

/-- A round of the loop is a step of the rules. -/
theorem step_progress (h : Progress assignments scratch r saves)
    (hStart : Fresh scratch (startTasks assignments))
    {makeCycleScratch : RegisterClass → Nat → Option Location}
    (hScratch : ∀ c n, makeCycleScratch c n = some scratch)
    (hMore : r.nPending ≠ 0) :
    ∃ r' saves', r.step makeCycleScratch = some (.inl r') ∧
      Progress assignments scratch r' saves' ∧
      roundBound r' < roundBound r := by
  cases hReady : r.ready with
  | cons j rest =>
      obtain ⟨e, r', hj, hp, hUnread, hStep, hEmits, hTables, hQueue⟩ :=
        Resolver.stepReady_spec h.tables h.queue hReady
      refine ⟨r', saves, ?_, h.emit hStart hj hp hUnread hEmits hTables hQueue,
        ?_⟩
      · unfold Resolver.step
        rw [hReady]
        dsimp only
        rw [hStep]
        rfl
      · unfold roundBound
        rw [hEmits.nPending_eq, hEmits.candidates_eq]
        omega
  | nil =>
      have hBlocked := h.blocked hReady
      have hWf := h.run.wellFormed hStart
      -- every pending assignment is a candidate that has not been looked at
      have hPending : ∀ (i : Nat) (q : PendingAssignment Location),
          r.pending[i]? = some q → q.pending = true →
          i ∈ r.cycleCandidates ∧ r.Candidate q := by
        intro i q hi hq
        have hEntry := Resolver.entries_getElem? hi
        have hTask : taskOf assignments q.core ∈
            tasksOf assignments r.entries :=
          mem_tasksOf.mpr ⟨q.core, List.mem_of_getElem? hEntry, rfl⟩
        have hNotScratch := hBlocked.source_ne_scratch hWf hTask hq
        refine ⟨(h.candidates i q.core hEntry hq).resolve_left hNotScratch, hq,
          ?_⟩
        rw [← Option.not_isNone, Bool.not_eq_true', Option.isNone_eq_false_iff,
          Option.isSome_iff_ne_none]
        intro hFree
        exact hBlocked _ hTask hq
          (unread_iff.mpr (h.tables.sources_eq_none.mp hFree))
      obtain ⟨e, he, hep⟩ : ∃ e ∈ r.entries, e.pending = true := by
        rw [h.nPending_eq] at hMore
        exact List.countP_pos_iff.mp (Nat.pos_of_ne_zero hMore)
      obtain ⟨i, hi⟩ := List.mem_iff_getElem?.mp he
      obtain ⟨q, hiq, rfl⟩ := Resolver.exists_of_entries hi
      obtain ⟨hIn, hCandidate⟩ := hPending i q hiq hep
      obtain ⟨j, rest, p, hNext, hj, hCand, hShort, hRest, hCover⟩ :=
        Resolver.nextCycle_spec r.cycleCandidates h.candidates_lt
          ⟨i, hIn, q, hiq, hCandidate⟩
      let asked : Resolver Location := { r with
        cycleCandidates := rest
        scratchCalls := r.scratchCalls ++
          [(p.registerClass, r.result.moves.length)] }
      have hAskedTables : asked.Tables :=
        ⟨h.tables.destinations, h.tables.byDestination, h.tables.sources,
          h.tables.users_nodup, h.tables.users_lt, h.tables.users_live,
          h.tables.users_mem⟩
      have hAskedQueue : asked.Queue fun _ _ => False :=
        ⟨h.queue.nodup, h.queue.queued_iff, h.queue.ready_free,
          h.queue.free_ready⟩
      have hOne := h.oneReader hStart hReady hj hCand.1
      have hAskedOne : asked.OneReader j p scratch :=
        ⟨hOne.get, hOne.pending, hOne.only, hOne.scratch_unread⟩
      obtain ⟨r', hBreak, hSaves, hTables, hQueue⟩ :=
        Resolver.breakCycle_spec hAskedTables hAskedQueue hReady hAskedOne
      refine ⟨r', saves ++ [p.core.sourceLocation], ?_,
        h.save hStart (Resolver.entries_getElem? hj) hCand.1 hBlocked hRest
          (fun k hk => ?_) hSaves hTables hQueue, ?_⟩
      · have hStep : r.step makeCycleScratch = r.stepCycle makeCycleScratch := by
          unfold Resolver.step
          rw [hReady]
        rw [hStep]
        unfold Resolver.stepCycle
        rw [bind_of_eq_some hNext]
        dsimp only
        rw [bind_of_eq_some hj, hScratch]
        exact bind_of_eq_some hBreak _
      · rcases hCover k hk with hSame | hIn | hNot
        · exact .inl hSame
        · exact .inr (.inl hIn)
        · refine .inr (.inr fun e' he' => ?_)
          obtain ⟨q', hq', rfl⟩ := Resolver.exists_of_entries he'
          cases hPend : q'.core.pending with
          | false => rfl
          | true => exact absurd (hPending k q' hq' hPend).2 (hNot q' hq')
      · unfold roundBound
        rw [hSaves.nPending_eq, hSaves.candidates_eq]
        show r.nPending + rest.length < r.nPending + r.cycleCandidates.length
        omega

/-- The loop ends with every assignment carried out. -/
theorem resolve_progress
    (hStart : Fresh scratch (startTasks assignments))
    {makeCycleScratch : RegisterClass → Nat → Option Location}
    (hScratch : ∀ c n, makeCycleScratch c n = some scratch) :
    ∀ (fuel : Nat) (r : Resolver Location) (saves : List Location),
      Progress assignments scratch r saves → roundBound r ≤ fuel →
      ∃ r' saves', Resolver.resolve makeCycleScratch fuel r =
          some (.ok r') ∧
        Progress assignments scratch r' saves' ∧ r'.nPending = 0 := by
  intro fuel
  induction fuel with
  | zero =>
      intro r saves h hFuel
      have hDone : r.nPending = 0 := by
        unfold roundBound at hFuel
        omega
      refine ⟨r, saves, ?_, h, hDone⟩
      unfold Resolver.resolve
      rw [if_pos hDone]
  | succ fuel ih =>
      intro r saves h hFuel
      by_cases hDone : r.nPending = 0
      · refine ⟨r, saves, ?_, h, hDone⟩
        unfold Resolver.resolve
        rw [if_pos hDone]
      · obtain ⟨r', saves', hStep, h', hLess⟩ :=
          step_progress h hStart hScratch hDone
        obtain ⟨r'', saves'', hResolve, h'', hEnd⟩ :=
          ih r' saves' h' (by omega)
        refine ⟨r'', saves'', ?_, h'', hEnd⟩
        unfold Resolver.resolve
        rw [if_neg hDone]
        dsimp only
        rw [hStep]
        exact hResolve

end Rounds

/-! ## The whole order -/

section Order

variable {assignments : List (ParallelAssignment Location)}
  {scratch : Location} {r : Resolver Location} {saves : List Location}

theorem progress_start (hMade : Resolver.Made assignments r) :
    Progress assignments scratch r [] := by
  have hEntry : ∀ e ∈ r.entries, ∃ a, assignments[e.originalIndex]? = some a ∧
      e = Resolver.startEntry e.originalIndex a := by
    intro e he
    rw [hMade.entries_eq] at he
    obtain ⟨i, a, hi, -, rfl⟩ := Resolver.mem_startEntries _ _ _ he
    rw [Nat.zero_add]
    exact ⟨a, hi, rfl⟩
  have hAll : ∀ e ∈ r.entries, e.pending = true := by
    intro e he
    obtain ⟨a, -, hEq⟩ := hEntry e he
    rw [hEq]
    rfl
  refine
    { tables := hMade.tables
      queue := hMade.queue
      nPending_eq := ?_
      candidates_lt := fun i hi => ?_
      candidates := fun j e hj _ => .inr ?_
      entry := fun e he => ?_
      run := ?_
      carries := fun k m hk => ?_
      calls := ?_
      aliasing := hMade.aliasing_eq }
  · rw [hMade.nPending_eq]
    exact (List.countP_eq_length.mpr hAll).symm
  · rw [hMade.candidates_eq] at hi
    exact List.mem_range.mp hi
  · rw [hMade.candidates_eq, List.mem_range, ← Resolver.length_entries]
    exact (List.getElem?_eq_some_iff.mp hj).1
  · obtain ⟨a, ha, hEq⟩ := hEntry e he
    refine ⟨a, ha, ?_, ?_, ?_⟩
    · rw [hEq]
      rfl
    · rw [hEq]
      rfl
    · have hSource : e.source = .originalAssignment e.originalIndex :=
        (congrArg PendingAssignment.source hEq).trans rfl
      rw [hSource]
      exact .original _
  · rw [hMade.moves_eq, hMade.entries_eq]
    exact .start
  · rw [hMade.moves_eq] at hk
    exact absurd hk nofun
  · rw [hMade.calls_eq]
    exact .nil

/-- A call of the callback is a save. -/
theorem Progress.call_save (h : Progress assignments scratch r saves)
    {k n : Nat} {c : RegisterClass} (hk : r.scratchCalls[k]? = some (c, n)) :
    ∃ s, saves[k]? = some s ∧ ∃ m, r.result.moves[n]? = some m ∧
      m.originalAssignmentIndex = none ∧ m.registerClass = c ∧
      m.sourceLocation = s := by
  obtain ⟨hLt, hGet⟩ := List.getElem?_eq_some_iff.mp hk
  have hLt' : k < saves.length := h.calls.length_eq ▸ hLt
  have hCall := h.calls.get hLt hLt'
  rw [List.get_eq_getElem, hGet] at hCall
  exact ⟨saves[k], List.getElem?_eq_getElem hLt', hCall⟩

/-- A save is a call of the callback. -/
theorem Progress.save_call (h : Progress assignments scratch r saves)
    {k : Nat} {s : Location} (hk : saves[k]? = some s) :
    ∃ c n m, r.scratchCalls[k]? = some (c, n) ∧
      r.result.moves[n]? = some m ∧ m.sourceLocation = s := by
  have hLt : k < r.scratchCalls.length :=
    h.calls.length_eq ▸ (List.getElem?_eq_some_iff.mp hk).1
  have hCall := List.getElem?_eq_getElem hLt
  obtain ⟨s', hs', m, hm, -, -, hSource⟩ :=
    h.call_save (c := r.scratchCalls[k].1) (n := r.scratchCalls[k].2) hCall
  obtain rfl := Option.some.inj (hk.symm.trans hs')
  exact ⟨_, _, m, hCall, hm, hSource⟩

/-- What the moves do once everything has been carried out. -/
theorem Progress.ordered (h : Progress assignments scratch r saves)
    (hDistinct : (assignments.map ParallelAssignment.destination).Nodup)
    (hOutside : ∀ a ∈ assignments,
      a.source ≠ scratch ∧ a.destination ≠ scratch)
    (hEnd : r.nPending = 0) : Ordered assignments scratch r := by
  have hStart := fresh_startTasks hDistinct hOutside
  have hDone : ∀ t ∈ tasksOf assignments r.entries, t.pending = false := by
    rw [h.nPending_eq, List.countP_eq_zero] at hEnd
    intro t ht
    obtain ⟨e, he, rfl⟩ := mem_tasksOf.mp ht
    exact Bool.not_eq_true _ ▸ hEnd e he
  have hReads : Reads (tasksOf assignments r.entries) =
      AssignedFrom assignments := by
    rw [h.run.reads_eq, reads_startTasks]
  have hElsewhere : ∀ (V : Type) (σ : Location → V) (l : Location),
      (∀ a ∈ assignments, a.source ≠ a.destination → a.destination ≠ l) →
      l ≠ scratch → execute (movePairs r.result.moves) σ l = σ l := by
    intro V σ l hl hne
    refine (h.run.correct hStart σ).elsewhere l (fun hIn => ?_) hne
    obtain ⟨t, ht, rfl⟩ := List.mem_map.mp hIn
    have hRead : Reads (tasksOf assignments r.entries) t.destination t.origin :=
      ⟨t, ht, rfl, rfl⟩
    rw [hReads] at hRead
    obtain ⟨a, ha, hd, hs, hMoves⟩ := hRead
    exact hl a ha (by rwa [hd, hs]) hd
  obtain ⟨hOnCycle, hOnce⟩ := h.run.saves_once hStart hDone
  unfold OnCycle at hOnCycle hOnce
  unfold Follows at hOnce
  rw [reads_startTasks] at hOnCycle hOnce
  refine
    { values := fun V σ a ha => ?_
      frame := fun V σ l hl hne => ?_
      call := fun k n c hk => ?_
      callOnce := fun x hx => ?_
      carries := h.carries
      aliasing := h.aliasing }
  · by_cases hMoves : a.source = a.destination
    · -- an identity assignment: nobody writes its location
      rw [hMoves]
      refine hElsewhere V σ _ (fun b hb hbMoves hSame => ?_) (hOutside a ha).2
      obtain rfl := List.inj_on_of_nodup_map hDistinct hb ha hSame
      exact hbMoves hMoves
    · have hRead : AssignedFrom assignments a.destination a.source :=
        ⟨a, ha, rfl, rfl, hMoves⟩
      rw [← hReads] at hRead
      obtain ⟨t, ht, hd, hs⟩ := hRead
      rw [← hd, ← hs]
      exact (h.run.correct hStart σ).completed t ht (hDone t ht)
  · exact hElsewhere V σ l (fun a ha _ hSame =>
      hl (List.mem_map.mpr ⟨a, ha, hSame⟩)) hne
  · obtain ⟨s, hs, m, hm, hNone, hClass, hSource⟩ := h.call_save hk
    refine ⟨m, hm, hNone, hClass, ?_⟩
    rw [hSource]
    exact hOnCycle s (List.mem_of_getElem? hs)
  · obtain ⟨k, ⟨s, hs, hFollows⟩, hUnique⟩ := hOnce x hx
    obtain ⟨c, n, m, hk, hm, hSource⟩ := h.save_call hs
    refine ⟨k, ⟨c, n, m, hk, hm, hSource ▸ hFollows⟩, ?_⟩
    rintro k' ⟨c', n', m', hk', hm', hSame⟩
    obtain ⟨s', hs', m'', hm'', -, -, hSource'⟩ := h.call_save hk'
    obtain rfl := Option.some.inj (hm'.symm.trans hm'')
    exact hUnique k' ⟨s', hs', hSource' ▸ hSame⟩

theorem Ordered.destination_cases (h : Ordered assignments scratch r)
    {m : OrderedMove Location} (hm : m ∈ r.result.moves) :
    m.destination = scratch ∨
      ∃ a ∈ assignments, a.destination = m.destination := by
  obtain ⟨k, hk⟩ := List.mem_iff_getElem?.mp hm
  obtain ⟨i, a, hCarries⟩ := h.carries k m hk
  rcases hCarries.target with ⟨-, hDestination⟩ | ⟨-, hDestination⟩
  · exact .inr ⟨a, List.mem_of_getElem? hCarries.assignment_eq,
      hDestination.symm⟩
  · exact .inl hDestination

/-- A move reads what an earlier move has written, or the source of an
assignment. -/
theorem Ordered.source_cases (h : Ordered assignments scratch r) {k : Nat}
    {m : OrderedMove Location} (hk : r.result.moves[k]? = some m) :
    (∃ j < k, ∃ earlier, r.result.moves[j]? = some earlier ∧
      earlier.destination = m.sourceLocation) ∨
    ∃ a ∈ assignments, a.source = m.sourceLocation := by
  obtain ⟨i, a, hCarries⟩ := h.carries k m hk
  by_cases hEarlier : ∃ j < k, ∃ earlier, r.result.moves[j]? = some earlier ∧
      earlier.destination = m.sourceLocation
  · exact .inl hEarlier
  · -- a value that only this location has is the value the move carries
    refine .inr ⟨a, List.mem_of_getElem? hCarries.assignment_eq, ?_⟩
    have hValue := hCarries.value Prop fun l => l = m.sourceLocation
    rw [execute_of_forall_ne] at hValue
    · exact hValue.mp rfl
    · intro move hMove hSame
      obtain ⟨earlier, hIn, rfl⟩ := List.mem_map.mp hMove
      obtain ⟨j, hj⟩ := List.mem_iff_getElem?.mp hIn
      have hLt : j < k := by
        have hLength := (List.getElem?_eq_some_iff.mp hj).1
        rw [List.length_take] at hLength
        omega
      rw [List.getElem?_take_of_lt hLt] at hj
      exact hEarlier ⟨j, hLt, earlier, hj, hSame⟩

theorem orderParallelAssignments_progress
    {makeCycleScratch : RegisterClass → Nat → Option Location}
    (hDistinct : (assignments.map ParallelAssignment.destination).Nodup)
    (hOutside : ∀ a ∈ assignments,
      a.source ≠ scratch ∧ a.destination ≠ scratch)
    (hScratch : ∀ c n, makeCycleScratch c n = some scratch) :
    ∃ r saves, orderParallelAssignments assignments makeCycleScratch =
        some (.ok r) ∧ Progress assignments scratch r saves ∧
      r.nPending = 0 := by
  obtain ⟨r, hMake, hMade⟩ := Resolver.make_spec
    (hDistinct.sublist (startEntries_destinations_sublist assignments 0))
  obtain ⟨r', saves, hResolve, hProgress, hEnd⟩ :=
    resolve_progress (fresh_startTasks hDistinct hOutside) hScratch _ r []
      (progress_start hMade) (Nat.le_refl _)
  refine ⟨r', saves, ?_, hProgress, hEnd⟩
  unfold orderParallelAssignments
  rw [hMake]
  exact hResolve

/-- Assignments to distinct locations, with a callback that always has the same
location outside of them, end in moves that carry them out. -/
theorem orderParallelAssignments_ordered
    {makeCycleScratch : RegisterClass → Nat → Option Location}
    (hDistinct : (assignments.map ParallelAssignment.destination).Nodup)
    (hOutside : ∀ a ∈ assignments,
      a.source ≠ scratch ∧ a.destination ≠ scratch)
    (hScratch : ∀ c n, makeCycleScratch c n = some scratch) :
    ∃ r, orderParallelAssignments assignments makeCycleScratch =
        some (.ok r) ∧ Ordered assignments scratch r := by
  obtain ⟨r, saves, hOrder, hProgress, hEnd⟩ :=
    orderParallelAssignments_progress hDistinct hOutside hScratch
  exact ⟨r, hOrder, hProgress.ordered hDistinct hOutside hEnd⟩

end Order

/-- The location is on a cycle, and who gets a value of the cycle is on it. -/
def OnUnreadCycle (assignments : List (ParallelAssignment Location))
    (x : Location) : Prop :=
  OnAssignmentCycle assignments x ∧
    ∀ y z, SameCycle assignments x z → AssignedFrom assignments y z →
      SameCycle assignments z y

/-- The calls of the callback that led to an order. -/
def Resolver.Outcome.scratchCalls :
    Resolver.Outcome Location → List (RegisterClass × Nat)
  | .ok r => r.scratchCalls
  | _ => []

/-- `0` and `1` are exchanged, and `2` gets what `0` had. -/
def exchangeAndCopy : List (ParallelAssignment Nat) :=
  [⟨0, 1, .gpr⟩, ⟨1, 0, .gpr⟩, ⟨0, 2, .gpr⟩]

theorem orderParallelAssignments_ordered_exchangeAndCopy :
    ∃ r, orderParallelAssignments exchangeAndCopy (fun _ _ => some 3) =
        some (.ok r) ∧ Ordered exchangeAndCopy 3 r :=
  orderParallelAssignments_ordered (by decide) (by decide) fun _ _ => rfl

/-- The copy does not spare the call of the callback: it is made for a cycle
that another destination reads from. -/
theorem exchangeAndCopy_scratchCalls :
    (orderParallelAssignments exchangeAndCopy fun _ _ => some 3).map
      Resolver.Outcome.scratchCalls = some [(.gpr, 1)] ∧
    ∀ x, ¬ OnUnreadCycle exchangeAndCopy x := by
  refine ⟨by decide +kernel, ?_⟩
  have hRead : ∀ d s, AssignedFrom exchangeAndCopy d s →
      d = 1 ∧ s = 0 ∨ d = 0 ∧ s = 1 ∨ d = 2 ∧ s = 0 := by
    rintro d s ⟨a, ha, rfl, rfl, -⟩
    simp only [exchangeAndCopy, List.mem_cons, List.not_mem_nil,
      or_false] at ha
    rcases ha with rfl | rfl | rfl <;> simp
  have hLeaf : ∀ d, ¬ AssignedFrom exchangeAndCopy d 2 := by
    intro d h
    have := hRead d 2 h
    omega
  have hCopy : AssignedFrom exchangeAndCopy 2 0 :=
    ⟨⟨0, 2, .gpr⟩, by decide, rfl, rfl, by decide⟩
  have hApart : ¬ SameCycle exchangeAndCopy 0 2 := by
    intro h
    obtain h | ⟨d, -, hd⟩ := h.cases_tail
    · exact absurd h (by decide)
    · exact hLeaf d hd
  rintro x ⟨hCycle, hUnread⟩
  obtain ⟨s, hs, hBack⟩ := Relation.TransGen.head'_iff.mp hCycle
  rcases hRead x s hs with ⟨rfl, rfl⟩ | ⟨rfl, rfl⟩ | ⟨rfl, rfl⟩
  · exact hApart (hUnread 2 0 (.single hs) hCopy)
  · exact hApart (hUnread 2 0 .refl hCopy)
  · obtain ⟨d, -, hd⟩ := Relation.TransGen.tail'_iff.mp hCycle
    exact hLeaf d hd

end CloverVM.Jit
