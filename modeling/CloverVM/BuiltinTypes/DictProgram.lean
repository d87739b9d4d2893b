import CloverVM.BuiltinTypes.DictRefinement
import Mathlib.Data.List.Forall2

/-!
# Programs over dicts

Programs over any number of dicts: copies make new ones, and a dict may be
updated from another or from itself.  Every program runs to its end, and what
it answers and what is left in its dicts is what insertion-ordered maps give.
-/

namespace CloverVM.BuiltinTypes.Dict

open CloverVM.Collections

variable {K V T : Type} [DecidableEq K] [DecidableEq T]

/-- An instruction of a program over any number of dicts, which are known by
the order of their creation. -/
inductive Instruction (K V : Type) where
  | new
  | request (idx : Nat) (request : Request K V)
  | copy (idx : Nat)
  | updateFromDict (idx other : Nat)

section Programs

variable (P : KeyProtocol K T)

/-- An instruction, on dicts. -/
def step (dicts : List (Dict K V)) :
    Instruction K V → Option (List (Dict K V) × Answer K V)
  | .new => some (dicts ++ [empty], .dict dicts.length)
  | .request idx request =>
      match dicts[idx]? with
      | none => some (dicts, .noDict)
      | some d => do
          let (d, answer) ← perform P d request
          return (dicts.set idx d, answer)
  | .copy idx =>
      match dicts[idx]? with
      | none => some (dicts, .noDict)
      | some d => do return (dicts ++ [← d.copy], .dict dicts.length)
  | .updateFromDict idx other =>
      match dicts[idx]?, dicts[other]? with
      | some d, some source => do
          let d ← updateFromDict P
            (if idx = other then id else fun _ => source) d
          return (dicts.set idx d, .done)
      | _, _ => some (dicts, .noDict)

/-- The instruction, on insertion-ordered maps. -/
def stepMaps (maps : List (OrderedMap K V)) :
    Instruction K V → List (OrderedMap K V) × Answer K V
  | .new => (maps ++ [[]], .dict maps.length)
  | .request idx request =>
      match maps[idx]? with
      | none => (maps, .noDict)
      | some m =>
          let r := performMap P m request
          (maps.set idx r.1, r.2)
  | .copy idx =>
      match maps[idx]? with
      | none => (maps, .noDict)
      | some m => (maps ++ [m], .dict maps.length)
  | .updateFromDict idx other =>
      match maps[idx]?, maps[other]? with
      | some m, some source =>
          (maps.set idx (OrderedMap.update P.keyEqual m source), .done)
      | _, _ => (maps, .noDict)

/-- A program, from the dicts there are. -/
def run : List (Instruction K V) → List (Dict K V) →
    Option (List (Dict K V) × List (Answer K V))
  | [], dicts => some (dicts, [])
  | instruction :: program, dicts => do
      let (dicts, answer) ← step P dicts instruction
      let (dicts, answers) ← run program dicts
      return (dicts, answer :: answers)

/-- The program, from the maps there are. -/
def runMaps : List (Instruction K V) → List (OrderedMap K V) →
    List (OrderedMap K V) × List (Answer K V)
  | [], maps => (maps, [])
  | instruction :: program, maps =>
      let first := stepMaps P maps instruction
      let rest := runMaps program first.1
      (rest.1, first.2 :: rest.2)

end Programs

/-! ## Refinement -/

section Relation

variable {α β : Type} {R : α → β → Prop}

/-- What stands at one index of two related lists. -/
theorem forall₂_getElem? {as : List α} {bs : List β}
    (h : List.Forall₂ R as bs) (idx : Nat) :
    (as[idx]? = none ∧ bs[idx]? = none) ∨
      ∃ a b, as[idx]? = some a ∧ bs[idx]? = some b ∧ R a b := by
  induction h generalizing idx with
  | nil => exact .inl ⟨rfl, rfl⟩
  | cons hab _ ih =>
      rcases idx with _ | idx
      · exact .inr ⟨_, _, rfl, rfl, hab⟩
      · exact ih idx

theorem forall₂_set {as : List α} {bs : List β} (h : List.Forall₂ R as bs)
    (idx : Nat) {a : α} {b : β} (hab : R a b) :
    List.Forall₂ R (as.set idx a) (bs.set idx b) := by
  induction h generalizing idx with
  | nil => exact .nil
  | cons hhead htail ih =>
      rcases idx with _ | idx
      · exact .cons hab htail
      · exact .cons hhead (ih idx)

theorem forall₂_concat {as : List α} {bs : List β}
    (h : List.Forall₂ R as bs) {a : α} {b : β} (hab : R a b) :
    List.Forall₂ R (as ++ [a]) (bs ++ [b]) :=
  List.rel_append h (.cons hab .nil)

end Relation

variable {P : KeyProtocol K T} {dicts : List (Dict K V)}
  {maps : List (OrderedMap K V)}

/-- One instruction runs to its end and does what it does on the maps. -/
theorem step_refines (hP : Lawful P)
    (h : List.Forall₂ (Represents P) dicts maps)
    (instruction : Instruction K V) :
    ∃ dicts', step P dicts instruction =
        some (dicts', (stepMaps P maps instruction).2) ∧
      List.Forall₂ (Represents P) dicts' (stepMaps P maps instruction).1 := by
  have hlen := h.length_eq
  cases instruction with
  | new =>
      refine ⟨dicts ++ [empty], ?_, forall₂_concat h represents_empty⟩
      simp only [step, stepMaps, hlen]
  | request idx request =>
      rcases forall₂_getElem? h idx with ⟨hd, hm⟩ | ⟨d, m, hd, hm, hrep⟩
      · simp only [step, stepMaps, hd, hm]
        exact ⟨dicts, rfl, h⟩
      · obtain ⟨d', hd', hrep'⟩ := perform_represents hP hrep request
        simp only [step, stepMaps, hd, hm, hd']
        exact ⟨_, rfl, forall₂_set h idx hrep'⟩
  | copy idx =>
      rcases forall₂_getElem? h idx with ⟨hd, hm⟩ | ⟨d, m, hd, hm, hrep⟩
      · simp only [step, stepMaps, hd, hm]
        exact ⟨dicts, rfl, h⟩
      · obtain ⟨d', hd', hrep'⟩ := copy_represents hrep
        simp only [step, stepMaps, hd, hm, hd', hlen]
        exact ⟨_, rfl, forall₂_concat h hrep'⟩
  | updateFromDict idx other =>
      rcases forall₂_getElem? h idx with ⟨hd, hm⟩ | ⟨d, m, hd, hm, hrep⟩
      · simp only [step, stepMaps, hd, hm]
        exact ⟨dicts, rfl, h⟩
      · by_cases hsame : idx = other
        · subst hsame
          obtain ⟨d', hd', hrep'⟩ := updateFromSelf_represents hP hrep
          simp only [step, stepMaps, hd, hm, if_pos, hd']
          exact ⟨_, rfl, forall₂_set h idx hrep'⟩
        · rcases forall₂_getElem? h other with
            ⟨hs, hn⟩ | ⟨source, n, hs, hn, hsource⟩
          · simp only [step, stepMaps, hd, hm, hs, hn]
            exact ⟨dicts, rfl, h⟩
          · obtain ⟨d', hd', hrep'⟩ :=
              updateFromDict_represents hP hrep hsource
            simp only [step, stepMaps, hd, hm, hs, hn, if_neg hsame, hd']
            exact ⟨_, rfl, forall₂_set h idx hrep'⟩

/-- A program runs to its end, from dicts that stand for maps. -/
theorem run_represents (hP : Lawful P) (program : List (Instruction K V)) :
    ∀ {dicts : List (Dict K V)} {maps : List (OrderedMap K V)},
      List.Forall₂ (Represents P) dicts maps →
      ∃ dicts', run P program dicts =
          some (dicts', (runMaps P program maps).2) ∧
        List.Forall₂ (Represents P) dicts' (runMaps P program maps).1 := by
  induction program with
  | nil => intro dicts maps h; exact ⟨dicts, rfl, h⟩
  | cons instruction program ih =>
      intro dicts maps h
      obtain ⟨dicts₁, hstep, h₁⟩ := step_refines hP h instruction
      obtain ⟨dicts₂, hrun, h₂⟩ := ih h₁
      refine ⟨dicts₂, ?_, h₂⟩
      simp only [run, runMaps, hstep, Option.bind_eq_bind, Option.bind_some,
        hrun]
      rfl

/-- Every program over dicts, from none at all, runs to its end.  It answers
what the program over insertion-ordered maps answers; an iterator over each
dict that is left gives the items of its map, and the dict has their number. -/
theorem run_refines (P : KeyProtocol K T) (hP : Lawful P)
    (program : List (Instruction K V)) :
    ∃ dicts, run P program [] = some (dicts, (runMaps P program []).2) ∧
      List.Forall₂ (fun d m => d.iterate = m ∧ d.size = m.length) dicts
        (runMaps P program []).1 := by
  obtain ⟨dicts, hrun, hrep⟩ :=
    @run_represents K V T _ _ P hP program [] [] .nil
  refine ⟨dicts, hrun, hrep.imp fun d m h => ?_⟩
  exact ⟨(iterate_eq_items d).trans h.items, h.size_eq⟩

/-- Keys are an object and its contents; the low objects are strings. -/
def sampleKeys : KeyProtocol (Nat × Nat) Nat :=
  { text := fun k => if k.1 < 10 then some k.2 else none
    stringHashNormalized := fun t => t % 2
    otherHash := fun k => k.2 % 2
    otherEqual := fun a b => decide (a.2 = b.2) }

theorem sampleKeys_testEqual (a b : Nat × Nat) :
    sampleKeys.testEqual a b = decide (a.2 = b.2) := by
  unfold KeyProtocol.testEqual
  by_cases ha : a.1 < 10 <;> by_cases hb : b.1 < 10 <;>
    simp only [sampleKeys, ha, hb, if_true, if_false]

theorem sampleKeys_keyEqual (a b : Nat × Nat) :
    sampleKeys.keyEqual a b = true ↔ a.2 = b.2 := by
  unfold KeyProtocol.keyEqual
  rw [sampleKeys_testEqual, Bool.or_eq_true, decide_eq_true_iff,
    decide_eq_true_iff]
  constructor
  · rintro (rfl | h)
    · rfl
    · exact h
  · exact .inr

theorem sampleKeys_lawful : Lawful sampleKeys := by
  refine { equivalence := ?_, hashConsistent := ?_ }
  · simp only [sampleKeys_keyEqual]
    exact ⟨fun _ => rfl, fun h => h.symm, fun h h' => h.trans h'⟩
  · intro a b h
    rw [sampleKeys_keyEqual] at h
    have hhash : ∀ k : Nat × Nat,
        sampleKeys.hashValue k = (k.2 : Int) % 2 := by
      intro k
      unfold KeyProtocol.hashValue sampleKeys
      by_cases hk : k.1 < 10 <;> simp only [hk, if_true, if_false]
    rw [hhash, hhash, h]

/-- A program that overwrites a key by an equal one, reuses a tombstone,
leaves the string-keyed shape and copies. -/
def sampleProgram : List (Instruction (Nat × Nat) Nat) :=
  [ .new
  , .request 0 (.setItem (1, 4) 40)
  , .request 0 (.setItem (2, 6) 60)
  , .request 0 (.setItem (3, 4) 41)
  , .request 0 (.delItem (1, 4))
  , .request 0 (.setdefaultWithPresence (11, 8) 80)
  , .copy 0
  , .request 1 .popitem
  , .updateFromDict 0 1
  , .request 0 (.getItem (12, 6)) ]

theorem run_refines_sample :
    ∃ dicts, run sampleKeys sampleProgram [] =
        some (dicts, (runMaps sampleKeys sampleProgram []).2) ∧
      List.Forall₂ (fun d m => d.iterate = m ∧ d.size = m.length) dicts
        (runMaps sampleKeys sampleProgram []).1 :=
  run_refines sampleKeys sampleKeys_lawful sampleProgram

end CloverVM.BuiltinTypes.Dict
