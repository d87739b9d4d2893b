import CloverVM.Collections.PathWalk
import CloverVM.Stdlib.Posixpath

/-!
# Path algebra

What the path functions mean in terms of places in a tree.  A path names its
leading slashes and a list of components; `normpath` is the place where the
components lead, spelled out again, and `relpath` spells the way from one place
to another.
-/

namespace CloverVM.Stdlib.Posixpath

open CloverVM.Collections.PathWalk CloverVM.Runtime

/-- The extension is what follows the last dot of the last component. -/
theorem splitext_spec (path : Str) :
    (splitext path).1 ++ (splitext path).2 = path ∧
      slash ∉ (splitext path).2 ∧
      ((splitext path).2 = [] ∨
        ∃ rest, (splitext path).2 = dot :: rest ∧ dot ∉ rest) := by
  have hNone : ∀ result : Str × Str, result = (path, []) →
      result.1 ++ result.2 = path ∧ slash ∉ result.2 ∧
        (result.2 = [] ∨ ∃ rest, result.2 = dot :: rest ∧ dot ∉ rest) := by
    rintro result rfl
    exact ⟨List.append_nil _, List.not_mem_nil, Or.inl rfl⟩
  rw [splitext]
  split
  · exact hNone _ rfl
  · rename_i hAfter
    split
    · exact hNone _ rfl
    · have hSlash := neg_one_le_rfind path slash
      obtain ⟨rest, hDrop, hNot⟩ := drop_rfind (s := path) (c := dot) (by omega)
      refine ⟨List.take_append_drop _ _, ?_, Or.inr ⟨rest, hDrop, hNot⟩⟩
      intro hMem
      refine not_mem_drop_rfind path slash ?_
      rw [show (rfind path dot).toNat = (rfind path slash + 1).toNat +
        ((rfind path dot).toNat - (rfind path slash + 1).toNat) by omega,
        ← List.drop_drop] at hMem
      exact List.mem_of_mem_drop hMem

/-! ## Names -/

/-- The components of a path that are not empty. -/
def names (path : Str) : List Str :=
  (Stdlib.split path slash).filter (· ≠ [])

theorem names_append_slash (before after : Str) :
    names (before ++ slash :: after) = names before ++ names after := by
  rw [names, Stdlib.split, List.splitOn_append_cons_self, List.filter_append]
  rfl

theorem names_append_slashes (path : Str) (n : Nat) :
    names (path ++ List.replicate n slash) = names path := by
  induction n with
  | zero => rw [List.replicate_zero, List.append_nil]
  | succ n ih =>
      rw [List.replicate_succ', ← List.append_assoc, names_append_slash, ih]
      exact List.append_nil _

theorem allSep_iff {path : Str} (h : path ≠ []) :
    allSep path = true ↔ ∀ c ∈ path, c = slash := by
  have hLength : 0 < path.length := List.length_pos_of_ne_nil h
  simp only [allSep, decide_eq_true_eq, hLength, true_and,
    List.count_eq_length]
  exact forall₂_congr fun _ _ => eq_comm

theorem startswith_sep_iff {path : Str} :
    startswith path sep = true ↔ ∃ rest, path = slash :: rest := by
  rw [startswith, List.isPrefixOf_iff_prefix]
  exact ⟨fun ⟨rest, h⟩ => ⟨rest, h.symm⟩, fun ⟨rest, h⟩ => ⟨rest, h.symm⟩⟩

theorem endswith_sep_iff {path : Str} :
    endswith path sep = true ↔ ∃ before, path = before ++ [slash] := by
  rw [endswith, List.isSuffixOf_iff_suffix]
  exact ⟨fun ⟨rest, h⟩ => ⟨rest, h.symm⟩, fun ⟨rest, h⟩ => ⟨rest, h.symm⟩⟩

/-- The slashes a path begins with. -/
def leading (path : Str) : Str := path.takeWhile (· = slash)

/-- A path that has something else than slashes shows its leading ones. -/
theorem leading_append {path : Str} (h : ∃ c ∈ path, c ≠ slash) (rest : Str) :
    leading (path ++ rest) = leading path := by
  rw [leading, leading, List.takeWhile_append, if_neg]
  intro hLength
  obtain ⟨c, hMem, hne⟩ := h
  have hAll : path.takeWhile (· = slash) = path :=
    (List.takeWhile_prefix _).eq_of_length hLength
  rw [← hAll] at hMem
  have hSlash := List.mem_takeWhile_imp hMem
  exact hne (of_decide_eq_true hSlash)

/-- An item that is not absolute is put after what there is. -/
theorem join_relative {item : Str} (hItem : ∀ tail, item ≠ slash :: tail)
    (result : Str) :
    join result [item] =
      if result = [] ∨ endswith result sep then result ++ item
      else result ++ slash :: item := by
  have hStart : ¬ startswith item sep = true := by
    rw [startswith_sep_iff]
    rintro ⟨rest, hEq⟩
    exact hItem rest hEq
  change joinItem result item = _
  rw [joinItem, if_neg hStart, List.append_assoc]
  rfl

theorem ne_slash_cons {item : Str} (h : slash ∉ item) (tail : Str) :
    item ≠ slash :: tail := by
  rintro rfl
  exact h List.mem_cons_self

/-- What `split` cuts at the last slash. -/
theorem split_cases (path : Str) :
    (slash ∉ path ∧ split path = ([], path)) ∨
    ∃ before after, path = before ++ slash :: after ∧ slash ∉ after ∧
      split path =
        (if !allSep (before ++ [slash]) then rstrip (before ++ [slash]) slash
          else before ++ [slash], after) := by
  rcases rfind_cases path slash with ⟨hEq, hNot⟩ | ⟨before, after, rfl, hNot, hEq⟩
  · refine Or.inl ⟨hNot, ?_⟩
    rw [split, hEq, if_pos (by decide)]
  · refine Or.inr ⟨before, after, rfl, hNot, ?_⟩
    have hIndex : ((before.length : Int) + 1).toNat = before.length + 1 := by
      omega
    rw [split, hEq, if_neg (by omega), hIndex, List.take_length_add_append,
      List.drop_length_add_append]
    rfl

/-- The head and tail of a path name the same components. -/
theorem split_spec (path : Str) :
    slash ∉ (split path).2 ∧
      names (join (split path).1 [(split path).2]) = names path ∧
      leading (join (split path).1 [(split path).2]) = leading path := by
  rcases split_cases path with
    ⟨hNot, hSplit⟩ | ⟨before, after, rfl, hNot, hSplit⟩
  · rw [hSplit]
    refine ⟨hNot, ?_⟩
    rw [join_relative (ne_slash_cons hNot), if_pos (Or.inl rfl),
      List.nil_append]
    exact ⟨rfl, rfl⟩
  · rw [hSplit]
    refine ⟨hNot, ?_⟩
    rw [join_relative (ne_slash_cons hNot)]
    have hHead : before ++ [slash] ≠ [] := by simp
    cases hAll : allSep (before ++ [slash]) with
    | true =>
        have hEnd : endswith (before ++ [slash]) sep = true :=
          endswith_sep_iff.mpr ⟨before, rfl⟩
        simp only [Bool.not_true, Bool.false_eq_true, if_false]
        rw [if_pos (Or.inr hEnd), List.append_assoc]
        exact ⟨rfl, rfl⟩
    | false =>
        simp only [Bool.not_false, if_true]
        obtain ⟨n, hRun⟩ := rstrip_append (before ++ [slash]) slash
        have hOther : ∃ c ∈ rstrip (before ++ [slash]) slash, c ≠ slash := by
          have hSome := mt (allSep_iff hHead).mpr (by rw [hAll]; decide)
          push Not at hSome
          obtain ⟨c, hMem, hne⟩ := hSome
          rw [hRun, List.mem_append] at hMem
          exact ⟨c, hMem.resolve_right
            fun h => hne (List.eq_of_mem_replicate h), hne⟩
        have hCond : ¬ (rstrip (before ++ [slash]) slash = [] ∨
            endswith (rstrip (before ++ [slash]) slash) sep = true) := by
          rintro (hNil | hEnd)
          · obtain ⟨c, hMem, -⟩ := hOther
            rw [hNil] at hMem
            cases hMem
          · obtain ⟨front, hFront⟩ := endswith_sep_iff.mp hEnd
            exact rstrip_ne_concat front hFront
        have hPath : before ++ slash :: after =
            rstrip (before ++ [slash]) slash ++
              (List.replicate n slash ++ after) := by
          rw [← List.append_assoc, ← hRun, List.append_assoc]
          rfl
        have hNames : names before = names (rstrip (before ++ [slash]) slash) :=
          calc names before
              = names (before ++ [slash]) := (names_append_slashes before 1).symm
            _ = names (rstrip (before ++ [slash]) slash ++
                  List.replicate n slash) := congrArg names hRun
            _ = names (rstrip (before ++ [slash]) slash) :=
                names_append_slashes _ n
        rw [if_neg hCond]
        refine ⟨?_, ?_⟩
        · rw [names_append_slash, names_append_slash, hNames]
        · rw [leading_append hOther, hPath, leading_append hOther]

/-! ## Components -/

/-- The name of a file: what a component says that leads to a child. -/
structure FileName where
  text : Str
  noSlash : slash ∉ text
  ne_nil : text ≠ []
  ne_curdir : text ≠ curdir
  ne_pardir : text ≠ pardir

theorem FileName.ext_of {a b : FileName} (h : a.text = b.text) : a = b := by
  cases a
  cases b
  cases h
  rfl

/-- What the text between two slashes says. -/
def classify (comp : Str) (noSlash : slash ∉ comp) : Component FileName :=
  if h : comp = [] ∨ comp = curdir then .here
  else if hUp : comp = pardir then .parent
  else
    .child
      { text := comp
        noSlash := noSlash
        ne_nil := fun hNil => h (Or.inl hNil)
        ne_curdir := fun hDot => h (Or.inr hDot)
        ne_pardir := hUp }

def text : Component FileName → Str
  | .here => curdir
  | .parent => pardir
  | .child name => name.text

theorem slash_not_mem_text (c : Component FileName) : slash ∉ text c := by
  cases c with
  | here => decide
  | parent => decide
  | child name => exact name.noSlash

theorem text_ne_nil (c : Component FileName) : text c ≠ [] := by
  cases c with
  | here => decide
  | parent => decide
  | child name => exact name.ne_nil

theorem classify_text (c : Component FileName) (h : slash ∉ text c) :
    classify (text c) h = c := by
  cases c with
  | here => exact dif_pos (Or.inr rfl)
  | parent =>
      have hNot : ¬ (text .parent = [] ∨ text .parent = curdir) := by decide
      rw [classify, dif_neg hNot]
      exact dif_pos rfl
  | child name =>
      have hNot : ¬ (text (.child name) = [] ∨ text (.child name) = curdir) :=
        not_or.mpr ⟨name.ne_nil, name.ne_curdir⟩
      have hUp : ¬ text (.child name) = pardir := name.ne_pardir
      rw [classify, dif_neg hNot, dif_neg hUp]
      rfl

/-- The components of a path, from left to right. -/
def components (path : Str) : List (Component FileName) :=
  (Stdlib.split path slash).pmap classify fun _ h => not_mem_of_mem_split h

theorem components_eq {path : Str} {comps : List Str}
    (h : Stdlib.split path slash = comps) (hNot : ∀ comp ∈ comps, slash ∉ comp) :
    components path = comps.pmap classify hNot := by
  subst h
  rfl

theorem components_append_slash (before after : Str) :
    components (before ++ slash :: after) =
      components before ++ components after := by
  have hSplit : Stdlib.split (before ++ slash :: after) slash =
      Stdlib.split before slash ++ Stdlib.split after slash :=
    List.splitOn_append_cons_self before after
  have hBefore : ∀ comp ∈ Stdlib.split before slash, slash ∉ comp :=
    fun _ h => not_mem_of_mem_split h
  have hAfter : ∀ comp ∈ Stdlib.split after slash, slash ∉ comp :=
    fun _ h => not_mem_of_mem_split h
  rw [components_eq hSplit fun comp h =>
    (List.mem_append.mp h).elim (hBefore comp) (hAfter comp)]
  exact List.pmap_append' hBefore hAfter

theorem components_nil : components [] = [.here] := rfl

theorem components_slashes (n : Nat) (path : Str) :
    components (List.replicate n slash ++ path) =
      List.replicate n .here ++ components path := by
  induction n with
  | zero => rfl
  | succ n ih =>
      have hSplit := components_append_slash [] (List.replicate n slash ++ path)
      rw [List.replicate_succ, List.replicate_succ, List.cons_append,
        List.cons_append, ← ih]
      exact hSplit

/-- Reading back a path that was put together from components. -/
theorem components_join {cs : List (Component FileName)} (h : cs ≠ []) :
    components (Stdlib.join slash (cs.map text)) = cs := by
  have hNot : ∀ comp ∈ cs.map text, slash ∉ comp := by
    intro comp hMem
    obtain ⟨c, -, rfl⟩ := List.mem_map.mp hMem
    exact slash_not_mem_text c
  have hSplit : Stdlib.split (Stdlib.join slash (cs.map text)) slash =
      cs.map text :=
    List.splitOn_intercalate slash hNot (by simpa using h)
  rw [components_eq hSplit hNot, List.pmap_map]
  calc cs.pmap (fun c h => classify (text c) h) _
      = cs.pmap (fun c _ => c) (fun c _ => slash_not_mem_text c) :=
        List.pmap_congr_left cs fun c _ h _ => classify_text c h
    _ = cs := by rw [List.pmap_eq_map, List.map_id']

/-! ## The normal form -/

/-- A place is written as its slashes and its spelling, or as a dot. -/
def write (slashes : Nat) (place : Place FileName) : Str :=
  let result := List.replicate slashes slash ++
    Stdlib.join slash (place.spell.map text)
  if result = [] then curdir else result

/-- Where the components of a path lead. -/
def resolve (path : Str) : Place FileName :=
  (Place.start (initialSlashes path ≠ 0)).walk (components path)

theorem classify_cases (comp : Str) (h : slash ∉ comp) :
    (classify comp h = .here ∧ (comp = [] ∨ comp = curdir)) ∨
    (classify comp h = .parent ∧ comp = pardir) ∨
    ∃ name : FileName, classify comp h = .child name ∧ comp = name.text := by
  by_cases hHere : comp = [] ∨ comp = curdir
  · exact Or.inl ⟨dif_pos hHere, hHere⟩
  · by_cases hUp : comp = pardir
    · exact Or.inr (Or.inl ⟨by rw [classify, dif_neg hHere, dif_pos hUp], hUp⟩)
    · exact Or.inr (Or.inr ⟨_, by rw [classify, dif_neg hHere, dif_neg hUp],
        rfl⟩)

theorem normComponent_child (slashes : Nat) (parts : List Str)
    (name : FileName) :
    normComponent slashes parts name.text = parts ++ [name.text] := by
  rw [normComponent, if_neg (not_or.mpr ⟨name.ne_nil, name.ne_curdir⟩),
    if_pos (Or.inl name.ne_pardir)]

theorem normComponent_pardir (slashes : Nat) (parts : List Str) :
    normComponent slashes parts pardir =
      if (slashes = 0 ∧ parts = []) ∨ parts.getLast? = some pardir then
        parts ++ [pardir]
      else parts.dropLast := by
  have hNot : ¬ (pardir = [] ∨ pardir = curdir) := by decide
  rw [normComponent, if_neg hNot]
  cases parts with
  | nil => simp
  | cons part parts => simp

/-- The last part of a place below where the walk started is a name. -/
theorem getLast?_spell {place : Place FileName} {front : List FileName}
    {name : FileName} (h : place.names = front ++ [name]) :
    (place.spell.map text).getLast? = some name.text ∧
      (place.spell.map text).dropLast =
        ((place.withNames front).spell.map text) := by
  have hSpell : place.spell.map text =
      (place.withNames front).spell.map text ++ [name.text] := by
    simp only [Place.spell, Place.withNames, h, List.map_append,
      List.append_assoc]
    rfl
  rw [hSpell]
  exact ⟨List.getLast?_concat, List.dropLast_concat⟩

theorem spell_of_names_nil {place : Place FileName} (h : place.names = []) :
    place.spell.map text = List.replicate place.ups pardir := by
  rw [Place.spell, h, List.map_nil, List.append_nil, List.map_replicate]
  rfl

/-- A parent component drops the last name, goes further up, or stays at the
root. -/
theorem normComponent_spell_parent (place : Place FileName) {slashes : Nat}
    (hRooted : place.rooted = decide (slashes ≠ 0)) :
    normComponent slashes (place.spell.map text) pardir =
      (place.step .parent).spell.map text := by
  rw [normComponent_pardir]
  rcases List.eq_nil_or_concat' place.names with hNil | ⟨front, name, hNames⟩
  · have hStep : place.step .parent = place.above := if_pos hNil
    have hAbove : place.above.names = [] := hNil
    rw [hStep, spell_of_names_nil hNil, spell_of_names_nil hAbove]
    by_cases hSlashes : slashes = 0
    · have hFree : ¬ place.rooted = true := by simp [hRooted, hSlashes]
      have hUps : place.above.ups = place.ups + 1 := if_neg hFree
      rw [hUps, List.replicate_succ', if_pos]
      cases hZero : place.ups with
      | zero => exact Or.inl ⟨hSlashes, rfl⟩
      | succ n => exact Or.inr (by rw [List.replicate_succ', List.getLast?_concat])
    · have hRoot : place.rooted = true := by simp [hRooted, hSlashes]
      have hUps : place.above.ups = 0 := if_pos hRoot
      rw [hUps, place.noUps hRoot]
      exact if_neg (by simp [hSlashes])
  · obtain ⟨hLast, hDrop⟩ := getLast?_spell hNames
    have hne : place.names ≠ [] := by rw [hNames]; simp
    have hStep : place.step .parent = place.withNames front := by
      rw [Place.step, if_neg hne, hNames, List.dropLast_concat]
    rw [hStep, hLast, if_neg, hDrop]
    rintro (⟨-, hEmpty⟩ | hUp)
    · rw [hEmpty] at hLast
      cases hLast
    · exact name.ne_pardir (Option.some.inj hUp)

/-- One turn of the loop of `normpath` is one step in the tree. -/
theorem normComponent_spell (place : Place FileName) {slashes : Nat}
    (hRooted : place.rooted = decide (slashes ≠ 0)) (comp : Str)
    (h : slash ∉ comp) :
    normComponent slashes (place.spell.map text) comp =
      (place.step (classify comp h)).spell.map text := by
  rcases classify_cases comp h with
    ⟨hc, hHere⟩ | ⟨hc, rfl⟩ | ⟨name, hc, rfl⟩
  · rw [hc]
    exact if_pos hHere
  · rw [hc]
    exact normComponent_spell_parent place hRooted
  · rw [hc, normComponent_child]
    simp only [Place.step, Place.spell, Place.withNames, List.map_append,
      List.append_assoc]
    rfl

/-- The loop of `normpath` walks. -/
theorem normLoop_eq (comps : List Str) (hNot : ∀ comp ∈ comps, slash ∉ comp)
    (place : Place FileName) {slashes : Nat}
    (hRooted : place.rooted = decide (slashes ≠ 0)) :
    comps.foldl (normComponent slashes) (place.spell.map text) =
      (place.walk (comps.pmap classify hNot)).spell.map text := by
  induction comps generalizing place with
  | nil => rfl
  | cons comp comps ih =>
      have hHead := hNot comp List.mem_cons_self
      rw [List.foldl_cons, normComponent_spell place hRooted comp hHead]
      exact ih (fun c h => hNot c (List.mem_cons_of_mem _ h)) _
        ((place.step_rooted _).trans hRooted)

theorem initialSlashes_le (path : Str) : initialSlashes path ≤ 2 := by
  rw [initialSlashes]
  split
  · omega
  · split <;> omega

/-- The slashes that `normpath` puts in front. -/
theorem prependSlashes_eq {slashes : Nat} (h : slashes ≤ 2) (result : Str) :
    (if slashes = 2 then sep ++ (if slashes ≠ 0 then sep ++ result else result)
      else if slashes ≠ 0 then sep ++ result else result) =
      List.replicate slashes slash ++ result := by
  have hCases : slashes = 0 ∨ slashes = 1 ∨ slashes = 2 := by omega
  rcases hCases with rfl | rfl | rfl <;> rfl

/-- The normal form of a path is where its components lead, behind the slashes
that are kept. -/
theorem normpath_eq (path : Str) :
    normpath path = write (initialSlashes path) (resolve path) := by
  have hLoop : (Stdlib.split path slash).foldl
      (normComponent (initialSlashes path)) [] = (resolve path).spell.map text :=
    normLoop_eq (Stdlib.split path slash) (fun _ h => not_mem_of_mem_split h)
      (Place.start (initialSlashes path ≠ 0)) rfl
  rw [normpath]
  split
  · rename_i hNil
    rw [hNil]
    rfl
  · simp only [hLoop, prependSlashes_eq (initialSlashes_le path)]
    rfl

/-- One slash is kept of any number but two. -/
def keptSlashes (n : Nat) : Nat := if n = 2 then 2 else min n 1

theorem initialSlashes_replicate (n : Nat) (rest : Str)
    (h : ∀ tail, rest ≠ slash :: tail) :
    initialSlashes (List.replicate n slash ++ rest) = keptSlashes n := by
  have hRest : [slash].isPrefixOf rest = false := by
    cases rest with
    | nil => rfl
    | cons c rest =>
        have hne : (slash == c) = false :=
          beq_eq_false_iff_ne.mpr fun hEq => h rest (by rw [hEq])
        simp [List.isPrefixOf, hne]
  match n with
  | 0 => simp [initialSlashes, startswith, sep, hRest, keptSlashes]
  | 1 => simp [initialSlashes, startswith, sep, hRest, keptSlashes,
      List.isPrefixOf]
  | 2 => simp [initialSlashes, startswith, sep, hRest, keptSlashes,
      List.isPrefixOf, List.replicate_succ]
  | n + 3 => simp [initialSlashes, startswith, sep, keptSlashes,
      List.isPrefixOf, List.replicate_succ]

theorem initialSlashes_eq (path : Str) :
    initialSlashes path = keptSlashes (leading path).length := by
  have hRun : leading path = List.replicate (leading path).length slash := by
    refine List.eq_replicate_of_mem fun c hc => ?_
    have hSlash := List.mem_takeWhile_imp hc
    exact of_decide_eq_true hSlash
  have hPath : path = List.replicate (leading path).length slash ++
      path.dropWhile (· = slash) := by
    rw [← hRun, leading, List.takeWhile_append_dropWhile]
  conv_lhs => rw [hPath]
  refine initialSlashes_replicate _ _ fun tail hTail => ?_
  have hHead := List.head_dropWhile_not (· = slash) (l := path)
    (by rw [hTail]; exact List.cons_ne_nil _ _)
  simp [hTail] at hHead

/-! ## Reading a normal form -/

theorem prefix_join (part : Str) (parts : List Str) :
    part <+: Stdlib.join slash (part :: parts) := by
  cases parts with
  | nil => rw [Stdlib.join, List.intercalate_singleton]
  | cons next parts =>
      rw [Stdlib.join, List.intercalate_cons_cons, List.append_assoc]
      exact List.prefix_append _ _

/-- Components put together do not begin with a slash. -/
theorem join_text_ne_cons (cs : List (Component FileName)) (tail : Str) :
    Stdlib.join slash (cs.map text) ≠ slash :: tail := by
  intro hEq
  cases cs with
  | nil => cases hEq
  | cons c cs =>
      obtain ⟨rest, hPrefix⟩ := prefix_join (text c) (cs.map text)
      rw [List.map_cons, ← hPrefix] at hEq
      cases hText : text c with
      | nil => exact text_ne_nil c hText
      | cons d front =>
          have hNot := slash_not_mem_text c
          rw [hText, List.cons_append] at hEq
          rw [hText, (List.cons.inj hEq).1] at hNot
          exact hNot List.mem_cons_self

/-- The slashes and the place of a normal form are the ones it was written
from. -/
theorem read_write {slashes : Nat} (hLe : slashes ≤ 2) (place : Place FileName)
    (hRooted : place.rooted = decide (slashes ≠ 0)) :
    initialSlashes (write slashes place) = slashes ∧
      resolve (write slashes place) = place := by
  set parts := Stdlib.join slash (place.spell.map text) with hParts
  have hKept : keptSlashes slashes = slashes := by
    have hCases : slashes = 0 ∨ slashes = 1 ∨ slashes = 2 := by omega
    rcases hCases with rfl | rfl | rfl <;> rfl
  by_cases hEmpty : List.replicate slashes slash ++ parts = []
  · have hWrite : write slashes place = curdir := if_pos hEmpty
    obtain ⟨hZero, hNil⟩ := List.append_eq_nil_iff.mp hEmpty
    have hSlashes : slashes = 0 := by simpa using hZero
    have hSpell : place.spell = [] := by
      by_contra hne
      have hBack := components_join hne
      rw [← hParts, hNil, components_nil] at hBack
      rw [← hBack] at hParts
      rw [hParts] at hNil
      cases hNil
    have hPlace := place.walk_spell
    rw [hSpell, hRooted] at hPlace
    rw [hWrite]
    refine ⟨hSlashes ▸ rfl, ?_⟩
    rw [← hPlace, hSlashes]
    rfl
  · have hWrite : write slashes place = List.replicate slashes slash ++ parts :=
      if_neg hEmpty
    have hInitial : initialSlashes (write slashes place) = slashes := by
      rw [hWrite, initialSlashes_replicate _ _ (join_text_ne_cons _), hKept]
    refine ⟨hInitial, ?_⟩
    rw [resolve, hInitial, ← hRooted, hWrite, components_slashes,
      Place.walk_append, Place.walk_heres]
    by_cases hSpell : place.spell = []
    · have hNil : parts = [] := by rw [hParts, hSpell]; rfl
      have hPlace := place.walk_spell
      rw [hSpell] at hPlace
      rw [hNil, components_nil]
      exact hPlace
    · rw [hParts, components_join hSpell, place.walk_spell]

theorem resolve_rooted (path : Str) :
    (resolve path).rooted = decide (initialSlashes path ≠ 0) :=
  Place.walk_rooted _ _

/-- A normal form names the same place with the same slashes. -/
theorem read_normpath (path : Str) :
    initialSlashes (normpath path) = initialSlashes path ∧
      resolve (normpath path) = resolve path := by
  rw [normpath_eq]
  exact read_write (initialSlashes_le path) _ (resolve_rooted path)

theorem normpath_normpath (path : Str) :
    normpath (normpath path) = normpath path := by
  obtain ⟨hSlashes, hPlace⟩ := read_normpath path
  rw [normpath_eq (normpath path), hSlashes, hPlace, ← normpath_eq]

end CloverVM.Stdlib.Posixpath
