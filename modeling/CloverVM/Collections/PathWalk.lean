import Mathlib.Data.List.Induction

/-!
# Walking a tree by path components

A place in a tree is the list of names that leads to it from the root, or from
the place where a relative walk starts; a relative walk may also go up from
where it starts.  A component stays, goes to the parent or goes to a child.
-/

namespace CloverVM.Collections.PathWalk

variable {Name : Type*}

/-- What one component of a path says. -/
inductive Component (Name : Type*) where
  | here
  | parent
  | child (name : Name)

/-- Where a walk has come to.  Nothing is above the root. -/
structure Place (Name : Type*) where
  rooted : Bool
  ups : Nat
  names : List Name
  noUps : rooted = true → ups = 0

namespace Place

def start (rooted : Bool) : Place Name :=
  { rooted := rooted
    ups := 0
    names := []
    noUps := fun _ => rfl }

/-- The place with other names below the same origin. -/
def withNames (place : Place Name) (names : List Name) : Place Name :=
  { place with
    names := names }

/-- The parent of the place where a walk started, and of the root. -/
def above (place : Place Name) : Place Name :=
  { place with
    ups := if place.rooted = true then 0 else place.ups + 1
    noUps := fun h => if_pos h }

def step (place : Place Name) : Component Name → Place Name
  | .here => place
  | .parent =>
      if place.names = [] then place.above
      else place.withNames place.names.dropLast
  | .child name => place.withNames (place.names ++ [name])

/-- Resolve components from left to right. -/
def walk (place : Place Name) (path : List (Component Name)) : Place Name :=
  path.foldl step place

/-- The shortest path to a place from where the walk started. -/
def spell (place : Place Name) : List (Component Name) :=
  List.replicate place.ups .parent ++ place.names.map .child

variable (place : Place Name)

theorem ext_of {place place' : Place Name} (hRooted : place.rooted = place'.rooted)
    (hUps : place.ups = place'.ups) (hNames : place.names = place'.names) :
    place = place' := by
  obtain ⟨rooted, ups, names, noUps⟩ := place
  obtain ⟨rooted', ups', names', noUps'⟩ := place'
  cases hRooted
  cases hUps
  cases hNames
  rfl

theorem step_rooted (component : Component Name) :
    (place.step component).rooted = place.rooted := by
  cases component with
  | here => rfl
  | parent =>
      rw [step]
      split
      · rfl
      · rfl
  | child name => rfl

@[simp] theorem walk_cons (component : Component Name)
    (path : List (Component Name)) :
    place.walk (component :: path) = (place.step component).walk path := rfl

theorem walk_append (path path' : List (Component Name)) :
    place.walk (path ++ path') = (place.walk path).walk path' :=
  List.foldl_append

theorem walk_rooted (path : List (Component Name)) :
    (place.walk path).rooted = place.rooted := by
  induction path generalizing place with
  | nil => rfl
  | cons component path ih =>
      rw [walk_cons, ih, step_rooted]

/-- Components that stay change nothing. -/
theorem walk_heres (n : Nat) :
    place.walk (List.replicate n .here) = place := by
  induction n with
  | zero => rfl
  | succ n ih =>
      rw [List.replicate_succ, walk_cons]
      exact ih

theorem walk_children (names : List Name) :
    place.walk (names.map .child) = place.withNames (place.names ++ names) := by
  induction names generalizing place with
  | nil =>
      rw [List.append_nil]
      rfl
  | cons name names ih =>
      rw [List.map_cons, walk_cons, ih]
      refine ext_of rfl rfl ?_
      exact List.append_assoc _ [name] names

/-- Going up as often as there are names leads back to where they start. -/
theorem walk_parents (names below : List Name) :
    (place.withNames (names ++ below)).walk
      (List.replicate below.length .parent) = place.withNames names := by
  induction below using List.reverseRecOn with
  | nil =>
      rw [List.append_nil]
      rfl
  | append_singleton below name ih =>
      rw [List.length_append, List.length_singleton, List.replicate_succ,
        walk_cons, ← ih]
      congr 1
      have hne : names ++ (below ++ [name]) ≠ [] := by simp
      rw [step, withNames, if_neg hne]
      refine ext_of rfl rfl ?_
      change (names ++ (below ++ [name])).dropLast = names ++ below
      rw [← List.append_assoc, List.dropLast_concat]

theorem walk_parents_start (n : Nat) (place : Place Name)
    (hRooted : place.rooted = false) (hNames : place.names = []) :
    (place.walk (List.replicate n .parent)).ups = place.ups + n ∧
      (place.walk (List.replicate n .parent)).names = [] := by
  induction n generalizing place with
  | zero => exact ⟨rfl, hNames⟩
  | succ n ih =>
      have hStep : place.step .parent = place.above := if_pos hNames
      obtain ⟨hUps, hRest⟩ := ih place.above hRooted hNames
      rw [List.replicate_succ, walk_cons, hStep]
      have hAbove : place.above.ups = place.ups + 1 :=
        if_neg (by rw [hRooted]; decide)
      refine ⟨?_, hRest⟩
      rw [hUps, hAbove]
      omega

/-- A place is where its spelling leads. -/
theorem walk_spell : (start place.rooted).walk place.spell = place := by
  rw [spell, walk_append, walk_children]
  cases hRooted : place.rooted with
  | true =>
      rw [place.noUps hRooted]
      exact ext_of hRooted.symm (place.noUps hRooted).symm (List.nil_append _)
  | false =>
      obtain ⟨hUps, hNames⟩ :=
        walk_parents_start place.ups (@start Name false) rfl rfl
      refine ext_of ?_ ?_ ?_
      · rw [withNames, walk_rooted, hRooted]
        rfl
      · exact hUps.trans (Nat.zero_add _)
      · change _ ++ place.names = _
        rw [hNames, List.nil_append]

/-- Up to the ancestor that two lists of names have in common, and down
again. -/
def relative (origin target : List Name) (common : Nat) :
    List (Component Name) :=
  List.replicate (origin.length - common) .parent ++
    (target.drop common).map .child

theorem walk_relative {origin target : List Name} {common : Nat}
    (h : origin.take common = target.take common) :
    (place.withNames origin).walk (relative origin target common) =
      place.withNames target := by
  have hUp := place.walk_parents (origin.take common) (origin.drop common)
  rw [List.take_append_drop, List.length_drop] at hUp
  rw [relative, walk_append, hUp, walk_children]
  refine ext_of rfl rfl ?_
  change origin.take common ++ target.drop common = target
  rw [h, List.take_append_drop]

end Place

end CloverVM.Collections.PathWalk
