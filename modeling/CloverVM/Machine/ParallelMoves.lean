import Mathlib.Dynamics.PeriodicPts.Lemmas

/-!
# Parallel moves one after another

A set of moves that are to happen at once, with distinct destinations, is
carried out one move at a time.  There are two rules.  A pending task whose
destination is read by no pending task may be carried out.  When every pending
task is blocked, one of them may be re-directed: its value is saved to a scratch
location, which it reads from then on.
-/

namespace CloverVM.Machine.ParallelMoves

section Lists

variable {α β : Type} {xs : List α} {j : Nat} {x new : α}

theorem getElem?_set_cases {k : Nat} {y : α}
    (h : (xs.set j new)[k]? = some y) :
    (k = j ∧ y = new) ∨ (k ≠ j ∧ xs[k]? = some y) := by
  by_cases hk : k = j
  · subst hk
    left
    obtain ⟨hLt, hGet⟩ := List.getElem?_eq_some_iff.mp h
    rw [List.getElem_set_self] at hGet
    exact ⟨rfl, hGet.symm⟩
  · right
    rw [List.getElem?_set_ne (Ne.symm hk)] at h
    exact ⟨hk, h⟩

/-- A change that a function does not see. -/
theorem map_set_of_eq (f : α → β) (new : α) (hj : xs[j]? = some x)
    (h : f new = f x) : (xs.set j new).map f = xs.map f := by
  rw [List.map_set]
  apply List.ext_getElem?
  intro k
  rw [List.getElem?_set]
  split
  · subst j
    rw [List.getElem?_map, hj, h, List.length_map,
      if_pos (List.getElem?_eq_some_iff.mp hj).1]
    rfl
  · rfl

theorem mem_set_of_ne {y : α} (new : α) (hj : xs[j]? = some x) (hy : y ∈ xs)
    (hne : y ≠ x) : y ∈ xs.set j new := by
  obtain ⟨k, hk⟩ := List.mem_iff_getElem?.mp hy
  refine List.mem_iff_getElem?.mpr ⟨k, ?_⟩
  rw [List.getElem?_set_ne]
  · exact hk
  · rintro rfl
    exact hne (Option.some.inj (hk.symm.trans hj))

end Lists

/-! ## Tasks and runs -/

variable {L V : Type}

/-- A value that starts in `origin`, is in `source` now, and has to get to
`destination`. -/
structure MoveTask (L : Type) where
  origin : L
  source : L
  destination : L
  pending : Bool
deriving DecidableEq, Repr

/-- A move from the first to the second location. -/
def execute1 [DecidableEq L] (move : L × L) (σ : L → V) : L → V :=
  fun l => if l = move.2 then σ move.1 else σ l

/-- Moves one after another. -/
def execute [DecidableEq L] (moves : List (L × L)) (σ : L → V) : L → V :=
  moves.foldl (fun σ move => execute1 move σ) σ

theorem execute_append [DecidableEq L] (moves : List (L × L)) (move : L × L) (σ : L → V) :
    execute (moves ++ [move]) σ = execute1 move (execute moves σ) := by
  unfold execute
  rw [List.foldl_append]
  rfl

/-- No pending task reads the location. -/
def Unread (tasks : List (MoveTask L)) (l : L) : Prop :=
  ∀ t ∈ tasks, t.pending = true → t.source ≠ l

/-- Every pending task has its destination read by a pending task. -/
def Blocked (tasks : List (MoveTask L)) : Prop :=
  ∀ t ∈ tasks, t.pending = true → ¬ Unread tasks t.destination

/-- A run from `start`: the tasks it has come to, its moves, and the sources of
those moves that save a value to the scratch location. -/
inductive Run (scratch : L) (start : List (MoveTask L)) :
    List (MoveTask L) → List (L × L) → List L → Prop where
  | start : Run scratch start start [] []
  | emit {tasks : List (MoveTask L)} {moves : List (L × L)} {saves : List L}
      {j : Nat} {t : MoveTask L} (run : Run scratch start tasks moves saves)
      (hj : tasks[j]? = some t) (hPending : t.pending = true)
      (hUnread : Unread tasks t.destination) :
      Run scratch start (tasks.set j { t with pending := false })
        (moves ++ [(t.source, t.destination)]) saves
  | save {tasks : List (MoveTask L)} {moves : List (L × L)} {saves : List L}
      {j : Nat} {t : MoveTask L} (run : Run scratch start tasks moves saves)
      (hj : tasks[j]? = some t) (hPending : t.pending = true)
      (hBlocked : Blocked tasks) :
      Run scratch start (tasks.set j { t with source := scratch })
        (moves ++ [(t.source, scratch)]) (saves ++ [t.source])

/-- What a set of tasks is at the start: every value is where it started and
has to go somewhere else, no two go to the same place, and the scratch location
is not involved. -/
structure Fresh (scratch : L) (tasks : List (MoveTask L)) : Prop where
  pending : ∀ t ∈ tasks, t.pending = true
  source_eq : ∀ t ∈ tasks, t.source = t.origin
  moves : ∀ t ∈ tasks, t.origin ≠ t.destination
  destinations : (tasks.map MoveTask.destination).Nodup
  origin_ne : ∀ t ∈ tasks, t.origin ≠ scratch
  destination_ne : ∀ t ∈ tasks, t.destination ≠ scratch

/-- What stays true of the tasks of a run. -/
structure WellFormed (scratch : L) (tasks : List (MoveTask L)) : Prop where
  source_cases : ∀ t ∈ tasks, t.source = t.origin ∨ t.source = scratch
  destinations : (tasks.map MoveTask.destination).Nodup
  origin_ne : ∀ t ∈ tasks, t.origin ≠ scratch
  destination_ne : ∀ t ∈ tasks, t.destination ≠ scratch

theorem Fresh.wellFormed {scratch : L} {tasks : List (MoveTask L)}
    (h : Fresh scratch tasks) : WellFormed scratch tasks :=
  { source_cases := fun t hMem => .inl (h.source_eq t hMem)
    destinations := h.destinations
    origin_ne := h.origin_ne
    destination_ne := h.destination_ne }

section Tasks

variable {scratch : L} {tasks : List (MoveTask L)} {j : Nat} {t new : MoveTask L}

theorem WellFormed.same_of_destination {u : MoveTask L}
    (hWf : WellFormed scratch tasks) (ht : t ∈ tasks) (hu : u ∈ tasks)
    (h : t.destination = u.destination) : t = u :=
  List.inj_on_of_nodup_map hWf.destinations ht hu h

/-- Tasks at two places have two destinations. -/
theorem WellFormed.destination_ne_of_ne {k : Nat} {u : MoveTask L}
    (hWf : WellFormed scratch tasks) (hj : tasks[j]? = some t)
    (hk : tasks[k]? = some u) (hne : k ≠ j) :
    u.destination ≠ t.destination := by
  intro h
  have hLt : k < (tasks.map MoveTask.destination).length := by
    rw [List.length_map]
    exact (List.getElem?_eq_some_iff.mp hk).1
  apply hne
  apply (List.getElem?_inj hLt hWf.destinations).mp
  rw [List.getElem?_map, List.getElem?_map, hj, hk]
  exact congrArg some h

/-- A task may change its source to the scratch location and stop being
pending. -/
theorem WellFormed.set (hWf : WellFormed scratch tasks)
    (hj : tasks[j]? = some t) (hOrigin : new.origin = t.origin)
    (hDestination : new.destination = t.destination)
    (hSource : new.source = t.source ∨ new.source = scratch) :
    WellFormed scratch (tasks.set j new) := by
  have hMem : t ∈ tasks := List.mem_of_getElem? hj
  have hCases : ∀ u ∈ tasks.set j new, u ∈ tasks ∨ u = new :=
    fun u hu => List.mem_or_eq_of_mem_set hu
  refine
    { source_cases := fun u hu => ?_
      destinations := ?_
      origin_ne := fun u hu => ?_
      destination_ne := fun u hu => ?_ }
  · rcases hCases u hu with hOld | rfl
    · exact hWf.source_cases u hOld
    · rcases hSource with h | h
      · rw [h, hOrigin]
        exact hWf.source_cases t hMem
      · exact .inr h
  · rw [map_set_of_eq MoveTask.destination new hj hDestination]
    exact hWf.destinations
  · rcases hCases u hu with hOld | rfl
    · exact hWf.origin_ne u hOld
    · rw [hOrigin]
      exact hWf.origin_ne t hMem
  · rcases hCases u hu with hOld | rfl
    · exact hWf.destination_ne u hOld
    · rw [hDestination]
      exact hWf.destination_ne t hMem

theorem Run.wellFormed {start : List (MoveTask L)} {moves : List (L × L)}
    {saves : List L} (hStart : Fresh scratch start)
    (run : Run scratch start tasks moves saves) :
    WellFormed scratch tasks := by
  induction run with
  | start => exact hStart.wellFormed
  | emit run hj hPending hUnread ih => exact ih.set hj rfl rfl (.inl rfl)
  | save run hj hPending hBlocked ih => exact ih.set hj rfl rfl (.inr rfl)

end Tasks

section BlockedTasks

variable {scratch : L} {tasks : List (MoveTask L)} {t u : MoveTask L}

theorem not_unread_iff {l : L} :
    ¬ Unread tasks l ↔ ∃ t ∈ tasks, t.pending = true ∧ t.source = l := by
  unfold Unread
  push Not
  rfl

/-- The sources of blocked tasks are their destinations, each of them once:
there are no more sources than tasks, and every destination is one. -/
theorem Blocked.perm (hWf : WellFormed scratch tasks)
    (hBlocked : Blocked tasks) :
    ((tasks.filter MoveTask.pending).map MoveTask.destination).Perm
      ((tasks.filter MoveTask.pending).map MoveTask.source) := by
  have hNodup : ((tasks.filter MoveTask.pending).map MoveTask.destination).Nodup :=
    hWf.destinations.sublist (List.filter_sublist.map _)
  have hSubset : (tasks.filter MoveTask.pending).map MoveTask.destination ⊆
      (tasks.filter MoveTask.pending).map MoveTask.source := by
    intro l hl
    obtain ⟨t, ht, rfl⟩ := List.mem_map.mp hl
    obtain ⟨hMem, hp⟩ := List.mem_filter.mp ht
    obtain ⟨u, hu, hup, hSource⟩ := not_unread_iff.mp (hBlocked t hMem hp)
    exact List.mem_map.mpr ⟨u, List.mem_filter.mpr ⟨hu, hup⟩, hSource⟩
  apply (List.subperm_of_subset hNodup hSubset).perm_of_length_le
  rw [List.length_map, List.length_map]

/-- No two blocked tasks read one location. -/
theorem Blocked.source_inj (hWf : WellFormed scratch tasks)
    (hBlocked : Blocked tasks) (ht : t ∈ tasks) (hp : t.pending = true)
    (hu : u ∈ tasks) (hup : u.pending = true) (h : t.source = u.source) :
    t = u := by
  have hNodup : ((tasks.filter MoveTask.pending).map MoveTask.source).Nodup :=
    (hBlocked.perm hWf).nodup_iff.mp
      (hWf.destinations.sublist (List.filter_sublist.map _))
  exact List.inj_on_of_nodup_map hNodup (List.mem_filter.mpr ⟨ht, hp⟩)
    (List.mem_filter.mpr ⟨hu, hup⟩) h

/-- What a blocked task reads is the destination of a blocked task. -/
theorem Blocked.source_mem (hWf : WellFormed scratch tasks)
    (hBlocked : Blocked tasks) (ht : t ∈ tasks) (hp : t.pending = true) :
    ∃ u ∈ tasks, u.pending = true ∧ u.destination = t.source := by
  have hMem : t.source ∈ (tasks.filter MoveTask.pending).map MoveTask.destination :=
    (hBlocked.perm hWf).mem_iff.mpr
      (List.mem_map.mpr ⟨t, List.mem_filter.mpr ⟨ht, hp⟩, rfl⟩)
  obtain ⟨u, hu, hSame⟩ := List.mem_map.mp hMem
  obtain ⟨hMemU, hup⟩ := List.mem_filter.mp hu
  exact ⟨u, hMemU, hup, hSame⟩

/-- Among blocked tasks nobody reads the scratch location. -/
theorem Blocked.source_ne_scratch (hWf : WellFormed scratch tasks)
    (hBlocked : Blocked tasks) (ht : t ∈ tasks) (hp : t.pending = true) :
    t.source ≠ scratch := by
  obtain ⟨u, hu, -, hSame⟩ := hBlocked.source_mem hWf ht hp
  rw [← hSame]
  exact hWf.destination_ne u hu

theorem Blocked.source_eq_origin (hWf : WellFormed scratch tasks)
    (hBlocked : Blocked tasks) (ht : t ∈ tasks) (hp : t.pending = true) :
    t.source = t.origin :=
  (hWf.source_cases t ht).resolve_right (hBlocked.source_ne_scratch hWf ht hp)

end BlockedTasks

/-! ## Values -/

section Values

variable [DecidableEq L] {scratch : L} {start tasks : List (MoveTask L)}
  {moves : List (L × L)} {saves : List L} {σ σ' : L → V}

/-- How far the values have come: what is pending is still there to be read,
what is done is in place, and nothing else has changed. -/
structure Correct (scratch : L) (σ σ' : L → V) (tasks : List (MoveTask L)) :
    Prop where
  pending : ∀ t ∈ tasks, t.pending = true → σ' t.source = σ t.origin
  completed : ∀ t ∈ tasks, t.pending = false → σ' t.destination = σ t.origin
  elsewhere : ∀ l, l ∉ tasks.map MoveTask.destination → l ≠ scratch → σ' l = σ l

theorem execute1_of_ne (move : L × L) (σ : L → V) {l : L} (h : l ≠ move.2) :
    execute1 move σ l = σ l :=
  if_neg h

theorem execute1_self (move : L × L) (σ : L → V) :
    execute1 move σ move.2 = σ move.1 :=
  if_pos rfl

/-- A location that no move writes keeps its value. -/
theorem execute_of_forall_ne {l : L} : ∀ (moves : List (L × L)) (σ : L → V),
    (∀ move ∈ moves, move.2 ≠ l) → execute moves σ l = σ l := by
  intro moves
  induction moves with
  | nil => exact fun σ _ => rfl
  | cons move moves ih =>
      intro σ h
      have hRest := ih (execute1 move σ) fun m hm =>
        h m (List.mem_cons_of_mem _ hm)
      exact hRest.trans
        (execute1_of_ne move σ (h move (List.mem_cons_self ..)).symm)

/-- A task that is carried out overwrites what nobody reads. -/
theorem Correct.emit {j : Nat} {t : MoveTask L} (hWf : WellFormed scratch tasks)
    (h : Correct scratch σ σ' tasks) (hj : tasks[j]? = some t)
    (hPending : t.pending = true) (hUnread : Unread tasks t.destination) :
    Correct scratch σ (execute1 (t.source, t.destination) σ')
      (tasks.set j { t with pending := false }) := by
  have hMem : t ∈ tasks := List.mem_of_getElem? hj
  refine
    { pending := fun u hu hp => ?_
      completed := fun u hu hp => ?_
      elsewhere := fun l hl hne => ?_ }
  · obtain ⟨k, hk⟩ := List.mem_iff_getElem?.mp hu
    rcases getElem?_set_cases hk with ⟨-, rfl⟩ | ⟨-, hk⟩
    · exact absurd hp nofun
    · have hOld := List.mem_of_getElem? hk
      rw [execute1_of_ne _ _ (hUnread u hOld hp)]
      exact h.pending u hOld hp
  · obtain ⟨k, hk⟩ := List.mem_iff_getElem?.mp hu
    rcases getElem?_set_cases hk with ⟨-, rfl⟩ | ⟨hne, hk⟩
    · exact (execute1_self (t.source, t.destination) σ').trans
        (h.pending t hMem hPending)
    · rw [execute1_of_ne _ _ (hWf.destination_ne_of_ne hj hk hne)]
      exact h.completed u (List.mem_of_getElem? hk) hp
  · rw [map_set_of_eq MoveTask.destination { t with pending := false } hj rfl] at hl
    have hNot : l ≠ t.destination := fun hEq =>
      hl (hEq ▸ List.mem_map.mpr ⟨t, hMem, rfl⟩)
    rw [execute1_of_ne _ _ hNot]
    exact h.elsewhere l hl hne

/-- A value that is saved is read from where it is saved to.  The scratch
location is free, since the tasks are blocked. -/
theorem Correct.save {j : Nat} {t : MoveTask L} (hWf : WellFormed scratch tasks)
    (h : Correct scratch σ σ' tasks) (hj : tasks[j]? = some t)
    (hPending : t.pending = true) (hBlocked : Blocked tasks) :
    Correct scratch σ (execute1 (t.source, scratch) σ')
      (tasks.set j { t with source := scratch }) := by
  have hMem : t ∈ tasks := List.mem_of_getElem? hj
  refine
    { pending := fun u hu hp => ?_
      completed := fun u hu hp => ?_
      elsewhere := fun l hl hne => ?_ }
  · rcases List.mem_or_eq_of_mem_set hu with hOld | rfl
    · rw [execute1_of_ne _ _ (hBlocked.source_ne_scratch hWf hOld hp)]
      exact h.pending u hOld hp
    · exact (execute1_self (t.source, scratch) σ').trans
        (h.pending t hMem hPending)
  · rcases List.mem_or_eq_of_mem_set hu with hOld | rfl
    · rw [execute1_of_ne _ _ (hWf.destination_ne u hOld)]
      exact h.completed u hOld hp
    · exact absurd (hPending.symm.trans hp) nofun
  · rw [map_set_of_eq MoveTask.destination { t with source := scratch } hj rfl] at hl
    rw [execute1_of_ne _ _ hne]
    exact h.elsewhere l hl hne

/-- The values that a run has come to. -/
theorem Run.correct (hStart : Fresh scratch start)
    (run : Run scratch start tasks moves saves) (σ : L → V) :
    Correct scratch σ (execute moves σ) tasks := by
  induction run with
  | start =>
      exact
        { pending := fun t ht _ => congrArg σ (hStart.source_eq t ht)
          completed := fun t ht hp =>
            absurd ((hStart.pending t ht).symm.trans hp) nofun
          elsewhere := fun _ _ _ => rfl }
  | emit run hj hPending hUnread ih =>
      rw [execute_append]
      exact ih.emit (run.wellFormed hStart) hj hPending hUnread
  | save run hj hPending hBlocked ih =>
      rw [execute_append]
      exact ih.save (run.wellFormed hStart) hj hPending hBlocked

end Values

/-! ## Cycles -/

/-- The destination `d` gets the value of `s`. -/
def Reads (tasks : List (MoveTask L)) (d s : L) : Prop :=
  ∃ t ∈ tasks, t.destination = d ∧ t.origin = s

/-- The location takes part in a cycle of tasks. -/
def OnCycle (tasks : List (MoveTask L)) (x : L) : Prop :=
  Relation.TransGen (Reads tasks) x x

/-- The value of `y` has to get to `x`, maybe through other locations.  On a
cycle this says that `x` and `y` are on the same one. -/
def Follows (tasks : List (MoveTask L)) (x y : L) : Prop :=
  Relation.ReflTransGen (Reads tasks) x y

section Cycles

variable {scratch : L} {start tasks : List (MoveTask L)}
  {moves : List (L × L)} {saves : List L}

/-- A change of a task that keeps where its value comes from and goes to. -/
theorem reads_set {j : Nat} {t : MoveTask L} (new : MoveTask L)
    (hj : tasks[j]? = some t)
    (hOrigin : new.origin = t.origin)
    (hDestination : new.destination = t.destination) :
    Reads (tasks.set j new) = Reads tasks := by
  have hNew : new ∈ tasks.set j new :=
    List.mem_set (List.getElem?_eq_some_iff.mp hj).1 _
  have hMem : t ∈ tasks := List.mem_of_getElem? hj
  funext d s
  apply propext
  constructor
  · rintro ⟨u, hu, hd, hs⟩
    rcases List.mem_or_eq_of_mem_set hu with hOld | rfl
    · exact ⟨u, hOld, hd, hs⟩
    · exact ⟨t, hMem, hDestination.symm.trans hd, hOrigin.symm.trans hs⟩
  · rintro ⟨u, hu, hd, hs⟩
    obtain ⟨k, hk⟩ := List.mem_iff_getElem?.mp hu
    by_cases hkj : j = k
    · subst hkj
      obtain rfl := Option.some.inj (hj.symm.trans hk)
      exact ⟨new, hNew, hDestination.trans hd, hOrigin.trans hs⟩
    · refine ⟨u, List.mem_iff_getElem?.mpr ⟨k, ?_⟩, hd, hs⟩
      rw [List.getElem?_set_ne hkj]
      exact hk

theorem Run.reads_eq (run : Run scratch start tasks moves saves) :
    Reads tasks = Reads start := by
  induction run with
  | start => rfl
  | @emit _ _ _ _ t run hj hPending hUnread ih =>
      exact (reads_set { t with pending := false } hj rfl rfl).trans ih
  | @save _ _ _ _ t run hj hPending hBlocked ih =>
      exact (reads_set { t with source := scratch } hj rfl rfl).trans ih

theorem WellFormed.reads_unique (hWf : WellFormed scratch tasks) {d s s' : L}
    (h : Reads tasks d s) (h' : Reads tasks d s') : s = s' := by
  obtain ⟨t, ht, hd, hs⟩ := h
  obtain ⟨u, hu, hd', hs'⟩ := h'
  obtain rfl := hWf.same_of_destination ht hu (hd.trans hd'.symm)
  exact hs.symm.trans hs'

/-- From a cycle one can come back. -/
theorem WellFormed.follows_back (hWf : WellFormed scratch tasks) {x y : L}
    (hx : OnCycle tasks x) (h : Follows tasks x y) : Follows tasks y x := by
  induction h with
  | refl => exact Relation.ReflTransGen.refl
  | tail hxy hyz ih =>
      rename_i y z
      -- the next location after `y` on the way back to `x` is `z`
      have hLoop : Relation.TransGen (Reads tasks) y x :=
        Relation.TransGen.trans_right ih hx
      obtain ⟨z', hyz', hz'x⟩ := Relation.TransGen.head'_iff.mp hLoop
      obtain rfl := hWf.reads_unique hyz hyz'
      exact hz'x

theorem WellFormed.onCycle_of_follows (hWf : WellFormed scratch tasks)
    {x y : L} (hx : OnCycle tasks x) (h : Follows tasks x y) :
    OnCycle tasks y :=
  Relation.TransGen.trans_left
    (Relation.TransGen.trans_right (hWf.follows_back hx h) hx) h

/-- The location that a blocked task reads is the destination of a blocked
task again, so the blocked tasks form cycles. -/
theorem Blocked.onCycle (hWf : WellFormed scratch tasks)
    (hBlocked : Blocked tasks) {t : MoveTask L} (ht : t ∈ tasks)
    (hp : t.pending = true) : OnCycle tasks t.destination := by
  have hNext : ∀ u : { u : MoveTask L // u ∈ tasks ∧ u.pending = true },
      ∃ v : { v : MoveTask L // v ∈ tasks ∧ v.pending = true },
        v.1.destination = u.1.source := by
    intro u
    obtain ⟨v, hv, hvp, hSame⟩ := hBlocked.source_mem hWf u.2.1 u.2.2
    exact ⟨⟨v, hv, hvp⟩, hSame⟩
  choose next hNext using hNext
  have hFinite : Finite { u : MoveTask L // u ∈ tasks ∧ u.pending = true } :=
    (List.finite_toSet tasks).subset (fun _ h => h.1) |>.to_subtype
  have hInjective : Function.Injective next := by
    intro u v h
    have hSource : u.1.source = v.1.source := by
      rw [← hNext u, ← hNext v, h]
    exact Subtype.ext (hBlocked.source_inj hWf u.2.1 u.2.2 v.2.1 v.2.2 hSource)
  have hReads : ∀ u, Reads tasks u.1.destination (next u).1.destination := by
    intro u
    rw [hNext u, hBlocked.source_eq_origin hWf u.2.1 u.2.2]
    exact ⟨u.1, u.2.1, rfl, rfl⟩
  -- following the tasks comes back after as many steps as the period
  have hIterate : ∀ (n : Nat) (u : { u : MoveTask L // u ∈ tasks ∧ u.pending = true }),
      Relation.TransGen (Reads tasks) u.1.destination
        (next^[n + 1] u).1.destination := by
    intro n
    induction n with
    | zero => exact fun u => Relation.TransGen.single (hReads u)
    | succ n ih =>
        intro u
        rw [Function.iterate_succ_apply]
        exact Relation.TransGen.head (hReads u) (ih (next u))
  obtain ⟨n, hn, hPeriodic⟩ := Function.mem_periodicPts.mp
    (hInjective.mem_periodicPts ⟨t, ht, hp⟩)
  obtain ⟨m, rfl⟩ := Nat.exists_eq_succ_of_ne_zero (Nat.ne_of_gt hn)
  have hLoop := hIterate m ⟨t, ht, hp⟩
  rw [show next^[m + 1] ⟨t, ht, hp⟩ = ⟨t, ht, hp⟩ from hPeriodic] at hLoop
  exact hLoop

/-- What can be reached from the destination of a blocked task is the
destination of a blocked task. -/
theorem Blocked.follows (hWf : WellFormed scratch tasks)
    (hBlocked : Blocked tasks) {x y : L} (h : Follows tasks x y)
    (hx : ∃ t ∈ tasks, t.pending = true ∧ t.destination = x) :
    ∃ t ∈ tasks, t.pending = true ∧ t.destination = y := by
  induction h with
  | refl => exact hx
  | tail _ hyz ih =>
      obtain ⟨t, ht, hp, rfl⟩ := ih
      obtain ⟨u, hu, hd, rfl⟩ := hyz
      obtain rfl := hWf.same_of_destination hu ht hd
      obtain ⟨v, hv, hvp, hSame⟩ := hBlocked.source_mem hWf ht hp
      rw [hBlocked.source_eq_origin hWf ht hp] at hSame
      exact ⟨v, hv, hvp, hSame⟩

/-- How the saves of a run and the cycles correspond. -/
structure Saved (scratch : L) (tasks : List (MoveTask L)) (saves : List L) :
    Prop where
  /-- A saved value is of a cycle, and the task that read it either reads it
  from the scratch location or is done. -/
  onCycle : ∀ s ∈ saves, OnCycle tasks s ∧ ∃ t ∈ tasks, t.origin = s ∧
    Follows tasks s t.destination ∧ (t.pending = true → t.source = scratch)
  /-- No two saved values are of one cycle. -/
  apart : saves.Pairwise fun s s' => ¬ Follows tasks s s'
  /-- A cycle of which nothing has been saved is as it was. -/
  untouched : ∀ x, OnCycle tasks x → (∃ s ∈ saves, Follows tasks x s) ∨
    ∀ y, Follows tasks x y → ∃ t ∈ tasks, t.destination = y ∧
      t.pending = true ∧ t.source = t.origin

theorem saved_start (hStart : Fresh scratch tasks) :
    Saved scratch tasks [] := by
  refine
    { onCycle := fun s hs => absurd hs List.not_mem_nil
      apart := List.Pairwise.nil
      untouched := fun x hx => .inr fun y hy => ?_ }
  -- every location of a cycle is the destination of a task
  have hLoop := hStart.wellFormed.onCycle_of_follows hx hy
  obtain ⟨z, ⟨t, ht, hd, -⟩, -⟩ := Relation.TransGen.head'_iff.mp hLoop
  exact ⟨t, ht, hd, hStart.pending t ht, hStart.source_eq t ht⟩

/-- Cycles do not depend on how far the tasks are. -/
theorem Saved.of_reads {tasks' : List (MoveTask L)}
    (hReads : Reads tasks' = Reads tasks)
    (hCycle : ∀ s ∈ saves, OnCycle tasks s ∧ ∃ t ∈ tasks', t.origin = s ∧
      Follows tasks s t.destination ∧ (t.pending = true → t.source = scratch))
    (hApart : saves.Pairwise fun s s' => ¬ Follows tasks s s')
    (hUntouched : ∀ x, OnCycle tasks x → (∃ s ∈ saves, Follows tasks x s) ∨
      ∀ y, Follows tasks x y → ∃ t ∈ tasks', t.destination = y ∧
        t.pending = true ∧ t.source = t.origin) :
    Saved scratch tasks' saves := by
  have hOnCycle : OnCycle tasks' = OnCycle tasks := by
    unfold OnCycle
    rw [hReads]
  have hFollows : Follows tasks' = Follows tasks := by
    unfold Follows
    rw [hReads]
  constructor
  · rw [hOnCycle, hFollows]
    exact hCycle
  · rw [hFollows]
    exact hApart
  · rw [hOnCycle, hFollows]
    exact hUntouched

/-- A task that may be carried out is on no cycle of which nothing has been
saved: the task before it on the cycle would read its destination. -/
theorem Saved.emit {j : Nat} {t : MoveTask L} (hWf : WellFormed scratch tasks)
    (h : Saved scratch tasks saves) (hj : tasks[j]? = some t)
    (hUnread : Unread tasks t.destination) :
    Saved scratch (tasks.set j { t with pending := false }) saves := by
  have hLt := (List.getElem?_eq_some_iff.mp hj).1
  apply Saved.of_reads (reads_set { t with pending := false } hj rfl rfl)
  · intro s hs
    obtain ⟨hLoop, u, hu, hOrigin, hFollows, hScratch⟩ := h.onCycle s hs
    refine ⟨hLoop, ?_⟩
    by_cases hut : u = t
    · subst hut
      exact ⟨_, List.mem_set hLt _, hOrigin, hFollows, nofun⟩
    · exact ⟨u, mem_set_of_ne _ hj hu hut, hOrigin, hFollows, hScratch⟩
  · exact h.apart
  · intro x hx
    rcases h.untouched x hx with hSaved | hRest
    · exact .inl hSaved
    · refine .inr fun y hy => ?_
      obtain ⟨u, hu, hd, hp, hSource⟩ := hRest y hy
      by_cases hut : u = t
      · -- the task before `t` on the cycle is pending and reads its destination
        subst hut
        have hLoop := hWf.onCycle_of_follows hx hy
        obtain ⟨z, hyz, w, hw, hwd, hwo⟩ := Relation.TransGen.tail'_iff.mp hLoop
        obtain ⟨v, hv, hvd, hvp, hvs⟩ := hRest z (hy.trans hyz)
        obtain rfl := hWf.same_of_destination hv hw (hvd.trans hwd.symm)
        exact absurd (hvs.trans (hwo.trans hd.symm)) (hUnread v hv hvp)
      · exact ⟨u, mem_set_of_ne _ hj hu hut, hd, hp, hSource⟩

/-- A save is of a cycle of which nothing had been saved. -/
theorem Saved.save {j : Nat} {t : MoveTask L} (hWf : WellFormed scratch tasks)
    (h : Saved scratch tasks saves) (hj : tasks[j]? = some t)
    (hPending : t.pending = true) (hBlocked : Blocked tasks) :
    Saved scratch (tasks.set j { t with source := scratch })
      (saves ++ [t.source]) := by
  have hLt := (List.getElem?_eq_some_iff.mp hj).1
  have hMem : t ∈ tasks := List.mem_of_getElem? hj
  have hOrigin := hBlocked.source_eq_origin hWf hMem hPending
  have hStep : Reads tasks t.destination t.source :=
    ⟨t, hMem, rfl, hOrigin.symm⟩
  have hLoop := hBlocked.onCycle hWf hMem hPending
  have hForth : Follows tasks t.destination t.source :=
    Relation.ReflTransGen.single hStep
  have hBack := hWf.follows_back hLoop hForth
  apply Saved.of_reads (reads_set { t with source := scratch } hj rfl rfl)
  · intro s hs
    rcases List.mem_append.mp hs with hOld | hNew
    · obtain ⟨hOnCycle, u, hu, hus, hFollows, hScratch⟩ := h.onCycle s hOld
      refine ⟨hOnCycle, ?_⟩
      by_cases hut : u = t
      · subst hut
        exact ⟨_, List.mem_set hLt _, hus, hFollows, fun _ => rfl⟩
      · exact ⟨u, mem_set_of_ne _ hj hu hut, hus, hFollows, hScratch⟩
    · obtain rfl := List.mem_singleton.mp hNew
      exact ⟨hWf.onCycle_of_follows hLoop hForth, _, List.mem_set hLt _,
        hOrigin.symm, hBack, fun _ => rfl⟩
  · refine List.pairwise_append.mpr
      ⟨h.apart, List.pairwise_singleton _ _, fun s hs s' hs' hFollows => ?_⟩
    obtain rfl := List.mem_singleton.mp hs'
    -- the task that read `s` would be blocked, but it reads the scratch location
    obtain ⟨hOnCycle, u, hu, -, hus, hScratch⟩ := h.onCycle s hs
    have hReach : Follows tasks t.destination u.destination :=
      (hForth.trans (hWf.follows_back hOnCycle hFollows)).trans hus
    obtain ⟨v, hv, hvp, hvd⟩ :=
      hBlocked.follows hWf hReach ⟨t, hMem, hPending, rfl⟩
    obtain rfl := hWf.same_of_destination hv hu hvd
    exact hBlocked.source_ne_scratch hWf hv hvp (hScratch hvp)
  · intro x hx
    rcases h.untouched x hx with ⟨s, hs, hFollows⟩ | hRest
    · exact .inl ⟨s, List.mem_append_left _ hs, hFollows⟩
    · by_cases hSaved : Follows tasks x t.source
      · exact .inl ⟨t.source, List.mem_append_right _
          (List.mem_singleton.mpr rfl), hSaved⟩
      · refine .inr fun y hy => ?_
        obtain ⟨u, hu, hd, hp, hSource⟩ := hRest y hy
        have hut : u ≠ t := by
          rintro rfl
          exact hSaved (hy.trans (hd ▸ hForth))
        exact ⟨u, mem_set_of_ne _ hj hu hut, hd, hp, hSource⟩

theorem Run.saved (hStart : Fresh scratch start)
    (run : Run scratch start tasks moves saves) :
    Saved scratch tasks saves := by
  induction run with
  | start => exact saved_start hStart
  | emit run hj hPending hUnread ih =>
      exact ih.emit (run.wellFormed hStart) hj hUnread
  | save run hj hPending hBlocked ih =>
      exact ih.save (run.wellFormed hStart) hj hPending hBlocked

/-- A run that has carried out its tasks has saved one value of every cycle and
no other value. -/
theorem Run.saves_once (hStart : Fresh scratch start)
    (run : Run scratch start tasks moves saves)
    (hDone : ∀ t ∈ tasks, t.pending = false) :
    (∀ s ∈ saves, OnCycle start s) ∧
    ∀ x, OnCycle start x →
      ∃! k : Nat, ∃ s, saves[k]? = some s ∧ Follows start x s := by
  have hSaved := run.saved hStart
  have hWf := run.wellFormed hStart
  have hReads := run.reads_eq
  have hCycle : ∀ x, OnCycle start x ↔ OnCycle tasks x := by
    intro x
    unfold OnCycle
    rw [hReads]
  have hFollow : ∀ x y, Follows start x y ↔ Follows tasks x y := by
    intro x y
    unfold Follows
    rw [hReads]
  simp only [hCycle, hFollow]
  refine ⟨fun s hs => (hSaved.onCycle s hs).1, fun x hx => ?_⟩
  rcases hSaved.untouched x hx with ⟨s, hs, hFollows⟩ | hRest
  · obtain ⟨k, hk⟩ := List.mem_iff_getElem?.mp hs
    refine ⟨k, ⟨s, hk, hFollows⟩, ?_⟩
    rintro n ⟨s', hn, hFollows'⟩
    -- of two saves the earlier one would lead to the later one
    have hBetween : Follows tasks s s' :=
      (hWf.follows_back hx hFollows).trans hFollows'
    have hBetween' : Follows tasks s' s :=
      (hWf.follows_back hx hFollows').trans hFollows
    obtain ⟨hkLt, hkGet⟩ := List.getElem?_eq_some_iff.mp hk
    obtain ⟨hnLt, hnGet⟩ := List.getElem?_eq_some_iff.mp hn
    have hApart := List.pairwise_iff_getElem.mp hSaved.apart
    rcases Nat.lt_trichotomy n k with hLt | hEq | hLt
    · have hNot := hApart n k hnLt hkLt hLt
      rw [hnGet, hkGet] at hNot
      exact absurd hBetween' hNot
    · exact hEq
    · have hNot := hApart k n hkLt hnLt hLt
      rw [hnGet, hkGet] at hNot
      exact absurd hBetween hNot
  · obtain ⟨t, ht, -, hp, -⟩ := hRest x Relation.ReflTransGen.refl
    exact absurd (hp.symm.trans (hDone t ht)) nofun

end Cycles

end CloverVM.Machine.ParallelMoves
