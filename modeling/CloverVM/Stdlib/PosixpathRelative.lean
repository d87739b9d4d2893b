import CloverVM.Stdlib.PosixpathSpec

/-!
# Relative paths

Two absolute paths name two places below one root.  `relpath` finds their
common ancestor and spells the way up and down; joined to the first path and
normalized, it is the second.
-/

namespace CloverVM.Stdlib.Posixpath

open CloverVM.Collections.PathWalk CloverVM.Runtime

theorem initialSlashes_ne_zero_iff (path : Str) :
    initialSlashes path ≠ 0 ↔ isabs path = true := by
  rw [initialSlashes, isabs]
  split
  · rename_i h
    exact iff_of_true (by decide) h.1
  · split
    · rename_i h
      exact iff_of_true (by decide) h
    · rename_i h
      exact iff_of_false (fun hne => hne rfl) h

/-- An absolute form is the normal form of an absolute path. -/
theorem abspath_eq {cwd : Str} (hCwd : isabs cwd = true) (path : Str) :
    ∃ q, abspath cwd path = normpath q ∧ isabs q = true := by
  by_cases hAbs : isabs path = true
  · exact ⟨path, if_pos hAbs, hAbs⟩
  · refine ⟨join cwd [path], if_neg hAbs, ?_⟩
    obtain ⟨rest, rfl⟩ := startswith_sep_iff.mp hCwd
    have hPath : ∀ tail, path ≠ slash :: tail :=
      fun tail hEq => hAbs (startswith_sep_iff.mpr ⟨tail, hEq⟩)
    rw [join_relative hPath, isabs, startswith_sep_iff]
    split
    · exact ⟨_, List.cons_append⟩
    · exact ⟨_, List.cons_append⟩

/-- The absolute form of a path, unless it begins with exactly two slashes. -/
theorem exists_place {cwd path : Str} (hCwd : isabs cwd = true)
    (hTwo : (leading (abspath cwd path)).length ≠ 2) :
    ∃ place : Place FileName, place.rooted = true ∧
      abspath cwd path = write 1 place := by
  obtain ⟨q, hForm, hAbs⟩ := abspath_eq hCwd path
  have hKept := initialSlashes_eq (abspath cwd path)
  have hSlashes := (initialSlashes_ne_zero_iff q).mpr hAbs
  have hLe := initialSlashes_le q
  rw [hForm] at hKept hTwo ⊢
  rw [(read_normpath q).1, keptSlashes, if_neg hTwo] at hKept
  have hOne : initialSlashes q = 1 := by omega
  refine ⟨resolve q, ?_, ?_⟩
  · rw [resolve_rooted, hOne]
    rfl
  · rw [normpath_eq, hOne]

/-! ## The parts of an absolute path -/

/-- The names of a place below the root, put together. -/
def below (place : Place FileName) : Str :=
  Stdlib.join slash (place.names.map FileName.text)

theorem spell_of_rooted {place : Place FileName} (h : place.rooted = true) :
    place.spell = place.names.map .child := by
  rw [Place.spell, place.noUps h]
  rfl

theorem write_one {place : Place FileName} (h : place.rooted = true) :
    write 1 place = slash :: below place := by
  rw [write, spell_of_rooted h, List.map_map]
  exact if_neg (List.cons_ne_nil _ _)

theorem below_eq (place : Place FileName) :
    below place = Stdlib.join slash
      ((place.names.map Component.child).map text) := by
  rw [below, List.map_map]
  rfl

theorem below_ne_cons (place : Place FileName) (tail : Str) :
    below place ≠ slash :: tail := by
  rw [below_eq]
  exact join_text_ne_cons _ tail

theorem below_eq_nil_iff (place : Place FileName) :
    below place = [] ↔ place.names = [] := by
  constructor
  · intro hNil
    cases hNames : place.names with
    | nil => rfl
    | cons name rest =>
        have hPrefix := prefix_join name.text (rest.map FileName.text)
        rw [← List.map_cons, ← hNames] at hPrefix
        change _ <+: below place at hPrefix
        rw [hNil, List.prefix_nil] at hPrefix
        exact absurd hPrefix name.ne_nil
  · intro hNil
    rw [below, hNil]
    rfl

theorem components_below {place : Place FileName} (h : place.names ≠ []) :
    components (below place) = place.names.map .child := by
  rw [below_eq, components_join (by simpa using h)]

theorem below_ne_concat (place : Place FileName) (front : Str) :
    below place ≠ front ++ [slash] := by
  intro hEq
  by_cases hNames : place.names = []
  · rw [(below_eq_nil_iff place).mpr hNames] at hEq
    simp at hEq
  · have hComponents := components_below hNames
    rw [hEq, components_append_slash, components_nil] at hComponents
    have hMem : Component.here ∈ place.names.map Component.child := by
      rw [← hComponents]
      exact List.mem_append_right _ List.mem_cons_self
    obtain ⟨name, -, hHere⟩ := List.mem_map.mp hMem
    cases hHere

theorem normpath_write {slashes : Nat} (hLe : slashes ≤ 2)
    {place : Place FileName} (hRooted : place.rooted = decide (slashes ≠ 0)) :
    normpath (write slashes place) = write slashes place := by
  obtain ⟨hSlashes, hPlace⟩ := read_write hLe place hRooted
  rw [normpath_eq, hSlashes, hPlace]

theorem pathParts_write {place : Place FileName} (h : place.rooted = true) :
    pathParts (write 1 place) = place.names.map FileName.text := by
  have hDrop : (below place).dropWhile (· = slash) = below place := by
    cases hBelow : below place with
    | nil => rfl
    | cons c rest =>
        have hne : c ≠ slash := fun hEq =>
          below_ne_cons place rest (by rw [hBelow, hEq])
        exact List.dropWhile_cons_of_neg (by simpa using hne)
  have hStrip : strip (write 1 place) slash = below place := by
    rw [write_one h, strip, List.dropWhile_cons_of_pos (by simp), hDrop,
      rstrip_eq_self (below_ne_concat place)]
  rw [pathParts, normpath_write (by decide) h]
  simp only [hStrip]
  split
  · rename_i hNil
    rw [(below_eq_nil_iff place).mp hNil]
    rfl
  · rename_i hNil
    refine List.splitOn_intercalate slash ?_ ?_
    · intro part hPart
      obtain ⟨name, -, rfl⟩ := List.mem_map.mp hPart
      exact name.noSlash
    · rw [Ne, List.map_eq_nil_iff, ← below_eq_nil_iff]
      exact hNil

/-! ## The way -/

/-- The loop stops within a common prefix. -/
theorem commonLoop_spec (startParts pathParts : List Str) (limit idx : Nat)
    (h : startParts.take idx = pathParts.take idx) :
    startParts.take (commonLoop startParts pathParts limit idx) =
      pathParts.take (commonLoop startParts pathParts limit idx) := by
  induction idx using commonLoop.induct startParts pathParts limit with
  | case1 idx hMore ih =>
      rw [commonLoop, if_pos hMore]
      refine ih ?_
      rw [List.take_add_one, List.take_add_one, h, hMore.2]
  | case2 idx hDone =>
      rw [commonLoop, if_neg hDone]
      exact h

theorem relativeParts_eq (origin target : List FileName) (common : Nat) :
    relativeParts (origin.map FileName.text) (target.map FileName.text) common =
      (Place.relative origin target common).map text := by
  rw [relativeParts, Place.relative, List.map_append, List.map_replicate,
    List.length_map, List.map_map, List.map_drop]
  rfl

theorem text_injective : Function.Injective FileName.text :=
  fun _ _ h => FileName.ext_of h

/-- The relative path is a way from the one place to the other, written as a
dot when there is nowhere to go. -/
theorem relpath_eq {cwd path start : Str} (hne : path ≠ [])
    {origin target : Place FileName} (hOrigin : origin.rooted = true)
    (hTarget : target.rooted = true)
    (hStart : abspath cwd start = write 1 origin)
    (hPath : abspath cwd path = write 1 target) :
    ∃ common, origin.names.take common = target.names.take common ∧
      relpath cwd path start = .ok
        (if Place.relative origin.names target.names common = [] then curdir
          else Stdlib.join slash
            ((Place.relative origin.names target.names common).map text)) := by
  set originParts := origin.names.map FileName.text with hOriginParts
  set targetParts := target.names.map FileName.text with hTargetParts
  set common := commonLoop originParts targetParts
    (if targetParts.length < originParts.length then targetParts.length
      else originParts.length) 0 with hCommon
  refine ⟨common, ?_, ?_⟩
  · have hTake := commonLoop_spec originParts targetParts
      (if targetParts.length < originParts.length then targetParts.length
        else originParts.length) 0 rfl
    rw [← hCommon, hOriginParts, hTargetParts, ← List.map_take,
      ← List.map_take] at hTake
    exact List.map_injective_iff.mpr text_injective hTake
  · rw [relpath, if_neg hne, hStart, hPath, pathParts_write hOrigin,
      pathParts_write hTarget]
    simp only [← hOriginParts, ← hTargetParts, ← hCommon]
    rw [hOriginParts, hTargetParts, relativeParts_eq, List.length_map]
    by_cases hEmpty : Place.relative origin.names target.names common = []
    · rw [if_pos hEmpty, if_pos (by rw [hEmpty]; rfl)]
    · rw [if_neg hEmpty, if_neg (by simpa using hEmpty)]

/-- A written way does not begin with a slash, and walking its components is
going that way. -/
theorem components_way (way : List (Component FileName))
    (place : Place FileName) :
    (∀ tail, (if way = [] then curdir
      else Stdlib.join slash (way.map text)) ≠ slash :: tail) ∧
    place.walk (components (if way = [] then curdir
      else Stdlib.join slash (way.map text))) = place.walk way := by
  by_cases hEmpty : way = []
  · rw [if_pos hEmpty, hEmpty]
    exact ⟨fun tail hEq => absurd hEq (by simp [curdir, dot, slash, ch]), rfl⟩
  · rw [if_neg hEmpty, components_join hEmpty]
    exact ⟨join_text_ne_cons way, rfl⟩

/-- A relative path put after a normal form walks on from its place. -/
theorem resolve_join {place : Place FileName} (h : place.rooted = true)
    {item : Str} (hItem : ∀ tail, item ≠ slash :: tail) :
    initialSlashes (join (write 1 place) [item]) = 1 ∧
      resolve (join (write 1 place) [item]) = place.walk (components item) := by
  have hStart : (Place.start true).walk (place.names.map .child) = place := by
    have hSpell := place.walk_spell
    rw [h, spell_of_rooted h] at hSpell
    exact hSpell
  have hKept : ∀ rest : Str, (∀ tail, rest ≠ slash :: tail) →
      initialSlashes (slash :: rest) = 1 ∧
        resolve (slash :: rest) = (Place.start true).walk (components rest) := by
    intro rest hRest
    have hOne : initialSlashes (slash :: rest) = 1 :=
      initialSlashes_replicate 1 rest hRest
    refine ⟨hOne, ?_⟩
    have hComponents := components_slashes 1 rest
    change components (slash :: rest) = .here :: components rest at hComponents
    rw [resolve, hOne, hComponents]
    rfl
  rw [join_relative hItem, write_one h]
  by_cases hNames : place.names = []
  · have hBelow : below place = [] := (below_eq_nil_iff place).mpr hNames
    have hEnd : endswith (slash :: below place) sep = true :=
      endswith_sep_iff.mpr ⟨[], by rw [hBelow]; rfl⟩
    rw [if_pos (Or.inr hEnd), hBelow]
    rw [hNames] at hStart
    obtain ⟨hOne, hPlace⟩ := hKept item hItem
    refine ⟨hOne, ?_⟩
    rw [← hStart]
    exact hPlace
  · have hBelow : below place ≠ [] := mt (below_eq_nil_iff place).mp hNames
    have hEnd : ¬ (slash :: below place = [] ∨
        endswith (slash :: below place) sep = true) := by
      rintro (hNil | hEnd)
      · cases hNil
      · obtain ⟨front, hFront⟩ := endswith_sep_iff.mp hEnd
        cases front with
        | nil => exact hBelow (List.cons.inj hFront).2
        | cons c front =>
            exact below_ne_concat place front (List.cons.inj hFront).2
    have hRest : ∀ tail, below place ++ slash :: item ≠ slash :: tail := by
      intro tail hEq
      cases hCons : below place with
      | nil => exact hBelow hCons
      | cons c rest =>
          rw [hCons, List.cons_append] at hEq
          exact below_ne_cons place rest
            (by rw [hCons, (List.cons.inj hEq).1])
    rw [if_neg hEnd]
    obtain ⟨hOne, hPlace⟩ := hKept _ hRest
    refine ⟨hOne, ?_⟩
    rw [List.cons_append, hPlace, components_append_slash,
      components_below hNames, Place.walk_append, hStart]

/-- The relative path of a nonempty path leads from the start to it. -/
theorem normpath_join_relpath {cwd path start : Str} (hCwd : isabs cwd = true)
    (hne : path ≠ [])
    (hPath : (leading (abspath cwd path)).length ≠ 2)
    (hStart : (leading (abspath cwd start)).length ≠ 2) :
    ∃ rel, relpath cwd path start = .ok rel ∧
      normpath (join (abspath cwd start) [rel]) = abspath cwd path := by
  obtain ⟨target, hTarget, hTargetForm⟩ := exists_place hCwd hPath
  obtain ⟨origin, hOrigin, hOriginForm⟩ := exists_place hCwd hStart
  obtain ⟨common, hCommon, hRel⟩ :=
    relpath_eq hne hOrigin hTarget hOriginForm hTargetForm
  obtain ⟨hItem, hWalk⟩ := components_way
    (Place.relative origin.names target.names common) origin
  refine ⟨_, hRel, ?_⟩
  obtain ⟨hOne, hPlace⟩ := resolve_join hOrigin hItem
  have hArrive : origin.walk (Place.relative origin.names target.names common) =
      target := by
    refine (origin.walk_relative hCommon).trans ?_
    refine Place.ext_of (hOrigin.trans hTarget.symm) ?_ rfl
    exact (origin.noUps hOrigin).trans (target.noUps hTarget).symm
  rw [hOriginForm, hTargetForm, normpath_eq, hOne, hPlace, hWalk, hArrive]

theorem resolve_eq (path : Str) :
    resolve path = (Place.start (isabs path)).walk (components path) := by
  have hRooted : decide (initialSlashes path ≠ 0) = isabs path :=
    Bool.eq_iff_iff.mpr
      (decide_eq_true_iff.trans (initialSlashes_ne_zero_iff path))
  rw [resolve, hRooted]

/-- Normal forms, cuts and relative paths of all paths; the empty path has no
relative path. -/
theorem path_algebra :
    (∀ path, normpath (normpath path) = normpath path) ∧
    (∀ path, normpath path = write (keptSlashes (leading path).length)
      ((Place.start (isabs path)).walk (components path))) ∧
    (∀ path, (splitext path).1 ++ (splitext path).2 = path ∧
      slash ∉ (splitext path).2 ∧
      ((splitext path).2 = [] ∨
        ∃ rest, (splitext path).2 = dot :: rest ∧ dot ∉ rest)) ∧
    (∀ path, slash ∉ (split path).2 ∧
      names (join (split path).1 [(split path).2]) = names path ∧
      leading (join (split path).1 [(split path).2]) = leading path) ∧
    (∀ cwd path start, isabs cwd = true → normpath cwd = cwd →
      (leading (abspath cwd path)).length ≠ 2 →
      (leading (abspath cwd start)).length ≠ 2 →
      (path ≠ [] → ∃ rel, relpath cwd path start = .ok rel ∧
        normpath (join (abspath cwd start) [rel]) = abspath cwd path) ∧
      (path = [] → relpath cwd path start = .error valueError)) := by
  refine ⟨normpath_normpath, ?_, splitext_spec, split_spec, ?_⟩
  · intro path
    rw [← resolve_eq, ← initialSlashes_eq]
    exact normpath_eq path
  · intro cwd path start hCwd _ hPath hStart
    exact ⟨fun hne => normpath_join_relpath hCwd hne hPath hStart,
      fun hNil => if_pos hNil⟩

/-- The way from `/.` to `..` in the root directory. -/
theorem path_algebra_root :
    ∃ rel, relpath sep pardir curdir = .ok rel ∧
      normpath (join (abspath sep curdir) [rel]) = abspath sep pardir :=
  (path_algebra.2.2.2.2 sep pardir curdir (by decide) (by decide) (by decide)
    (by decide)).1 (by decide)

/-- The empty path names the current directory but has no relative path. -/
theorem relpath_nil_raises :
    isabs sep = true ∧ normpath sep = sep ∧
      (leading (abspath sep [])).length ≠ 2 ∧
      (leading (abspath sep curdir)).length ≠ 2 ∧
      ¬ ∃ rel, relpath sep [] curdir = .ok rel ∧
        normpath (join (abspath sep curdir) [rel]) = abspath sep [] := by
  refine ⟨by decide, by decide, by decide, by decide, ?_⟩
  rintro ⟨rel, hRel, -⟩
  cases hRel

end CloverVM.Stdlib.Posixpath
