import CloverVM.BuiltinTypes.DictReentryInvariant

/-!
# The representation invariant over re-entrant runs

Every step keeps the invariant of the machine except one: an insertion whose
walk ends at an empty slot while its key object has been stored behind the
walk, or with the table used up by other insertions that had passed the check
of the load.  Then the representation invariant is lost in that very step.
-/

namespace CloverVM.BuiltinTypes.Dict

open CloverVM.Collections
open CloverVM.Collections.LinearProbe

variable {K V T : Type} [DecidableEq K] [DecidableEq T]

/-- The invariant of a machine. -/
structure MachineInv (P : KeyProtocol K T) (m : Machine K V) : Prop where
  sound : Sound P m.dict
  /-- Nothing is in progress on a string-keyed dict, whose texts differ. -/
  strings : m.dict.shape = .stringKeyed →
    m.frames = [] ∧ Represents (byText P) m.dict m.dict.items
  frames : ∀ frame ∈ m.frames, ProbeInv P m.dict frame.key frame.probe
  /-- Only the walk on top is under way, in the table as it is. -/
  top : ∀ frame rest, m.frames = frame :: rest → frame.phase = .probing →
    frame.probe.tableGeneration = m.dict.tableGeneration
  waiting : ∀ frame ∈ m.frames.tail, frame.phase ≠ .probing

section Steps

variable {P : KeyProtocol K T} {d d' : Dict K V} {frame frame' : Frame K V}
  {rest : List (Frame K V)}

theorem machineInv_start : MachineInv P (Machine.start : Machine K V) :=
  { sound := sound_empty
    strings := fun _ => ⟨rfl, represents_empty⟩
    frames := fun _ h => nomatch h
    top := fun _ _ h => nomatch h
    waiting := fun _ h => nomatch h }

theorem MachineInv.general (h : MachineInv P ⟨d, frame :: rest⟩) :
    d.shape = .general := by
  rcases hshape : d.shape with _ | _
  · exact nomatch (h.strings hshape).1
  · rfl

/-- The operation on top has ended. -/
theorem MachineInv.pop (h : MachineInv P ⟨d, frame :: rest⟩)
    (hs : Sound P d') (hev : Evolves d d') (hshape : d'.shape = d.shape) :
    MachineInv P ⟨d', rest⟩ := by
  refine
    { sound := hs
      strings := ?_
      frames := ?_
      top := ?_
      waiting := ?_ }
  · intro hstring
    exact DictShape.noConfusion ((hshape.trans h.general).symm.trans hstring)
  · intro other hother
    exact (h.frames other (List.mem_cons_of_mem _ hother)).mono hev
  · intro other others hcons hphase
    have : rest = other :: others := hcons
    exact absurd hphase (h.waiting other (by
      show other ∈ rest
      rw [this]
      exact List.mem_cons_self))
  · intro other hother
    exact h.waiting other (List.mem_of_mem_tail hother)

/-- The operation on top goes on. -/
theorem MachineInv.resume (h : MachineInv P ⟨d, frame :: rest⟩)
    (hprobe : ProbeInv P d frame'.key frame'.probe)
    (hphase : frame'.phase = .probing →
      frame'.probe.tableGeneration = d.tableGeneration) :
    MachineInv P ⟨d, frame' :: rest⟩ := by
  refine
    { sound := h.sound
      strings := ?_
      frames := ?_
      top := ?_
      waiting := h.waiting }
  · intro hstring
    exact DictShape.noConfusion (h.general.symm.trans hstring)
  · intro other hother
    rcases List.mem_cons.mp hother with rfl | hrest
    · exact hprobe
    · exact h.frames other (List.mem_cons_of_mem _ hrest)
  · intro other others hcons
    cases hcons
    exact hphase

/-! ## The end of a walk -/

omit [DecidableEq T] in
/-- An insertion that found its key changes a value at most. -/
theorem finishInsert_found (hs : Sound P d) {s idx : Nat} {e : Entry K V}
    (hslot : d.slotAt s = .entry idx) (he : d.entryAt idx = some e) :
    Sound P (Machine.finishInsert d frame s) ∧
      Evolves d (Machine.finishInsert d frame s) ∧
      (Machine.finishInsert d frame s).shape = d.shape := by
  unfold Machine.finishInsert
  rcases hop : frame.op with value | value | _ | _ | _
  · simp only [storeAt, hslot]
    exact ⟨sound_writeExisting hs he value,
      { generation := Nat.le_refl _
        sameTable := fun _ => ⟨rfl, fun _ h => h⟩ }, rfl⟩
  · simp only [entryOfSlotAt, hslot, he]
    exact ⟨hs, Evolves.refl d, trivial⟩
  · exact ⟨hs, Evolves.refl d, rfl⟩
  · exact ⟨hs, Evolves.refl d, rfl⟩
  · exact ⟨hs, Evolves.refl d, rfl⟩

omit [DecidableEq K] in
/-- An insertion that ends at a free slot writes a new entry there. -/
theorem finishInsert_free (hop : frame.op.inserts = true) {s : Nat}
    (hfree : ∀ idx, d.slotAt s ≠ .entry idx) :
    ∃ value, Machine.finishInsert d frame s =
      d.writeNewAtSlot s frame.probe.hash frame.key value := by
  unfold Machine.finishInsert
  rcases hcase : frame.op with value | value | _ | _ | _
  · refine ⟨value, ?_⟩
    show d.storeAt s _ _ value = _
    unfold storeAt
    rcases hslot : d.slotAt s with _ | _ | idx
    · rfl
    · rfl
    · exact absurd hslot (hfree idx)
  · refine ⟨value, ?_⟩
    simp only [entryOfSlotAt_of_free hfree]
  · rw [hcase] at hop
    exact Bool.noConfusion hop
  · rw [hcase] at hop
    exact Bool.noConfusion hop
  · rw [hcase] at hop
    exact Bool.noConfusion hop

omit [DecidableEq K] in
/-- The slot that an insertion writes when its walk ends at an empty one. -/
theorem probeWriteSlot_cases {probe : Probe}
    (h : d.slotAt probe.hashIdx = .notPresent) :
    (d.probeRecordedTombstoneStillAvailable probe = true ∧
      probe.firstTombstoneIdx = some (d.probeWriteSlot probe) ∧
      d.slotAt (d.probeWriteSlot probe) = .tombstone) ∨
    (d.probeRecordedTombstoneStillAvailable probe = false ∧
      d.probeWriteSlot probe = probe.hashIdx ∧
      d.slotAt (d.probeWriteSlot probe) = .notPresent) := by
  unfold probeRecordedTombstoneStillAvailable probeWriteSlot
  rcases probe.firstTombstoneIdx with _ | t
  · exact .inr ⟨rfl, rfl, h⟩
  · by_cases ht : d.slotAt t = .tombstone
    · simp only [if_pos ht]
      exact .inl ⟨decide_eq_true ht, trivial, ht⟩
    · simp only [if_neg ht]
      exact .inr ⟨decide_eq_false ht, trivial, h⟩

omit [DecidableEq T] in
/-- A walk that ends at an empty slot has passed every slot of its key
object. -/
theorem keyBehind_of_live (hs : Sound P d) {key : K} {probe : Probe}
    (hprobe : ProbeInv P d key probe)
    (hgen : probe.tableGeneration = d.tableGeneration)
    (hfree : d.slotAt probe.hashIdx = .notPresent) {e : Entry K V}
    (he : e ∈ d.live) (hkey : e.key = key) : KeyBehind d probe key := by
  obtain ⟨idx, hidx⟩ := mem_live_iff.mp he
  obtain ⟨q, hq⟩ := hs.wellFormed.slotOfEntry idx e hidx
  have hreach := hs.wellFormed.slot_spec hq hidx
  rw [hs.wellFormed.storedHash idx e hidx, hkey, ← hprobe.hash] at hreach
  obtain ⟨i, hwalk⟩ := hprobe.walk hgen
  obtain ⟨r, hr, hrfree⟩ := hs.room
  have hi := hwalk.lt_size ⟨r, hr, fun hocc => hocc hrfree⟩
  rw [← hwalk.place] at hfree
  obtain ⟨j, hj, hplace⟩ := hreach.before_free (fun hocc => hocc hfree)
  have hne : j ≠ i := by
    rintro rfl
    rw [← hplace, hfree] at hq
    exact Slot.noConfusion hq
  exact ⟨i, j, by omega, hi, hwalk.place, idx, e, hplace ▸ hq, hidx, hkey⟩

omit [DecidableEq T] in
/-- A safe insertion of a new key. -/
theorem finishInsert_safe (hs : Sound P d) (hop : frame.op.inserts = true)
    (hshape : d.shape = .general)
    (hprobe : ProbeInv P d frame.key frame.probe)
    (hgen : frame.probe.tableGeneration = d.tableGeneration)
    (hfree : d.slotAt frame.probe.hashIdx = .notPresent)
    (hnew : ¬ KeyBehind d frame.probe frame.key)
    (hroom : LeavesRoom d frame.probe) :
    Sound P (Machine.finishInsert d frame (d.probeWriteSlot frame.probe)) ∧
      Evolves d
        (Machine.finishInsert d frame (d.probeWriteSlot frame.probe)) ∧
      (Machine.finishInsert d frame (d.probeWriteSlot frame.probe)).shape =
        d.shape := by
  have hkeys : ∀ e ∈ d.live, e.key ≠ frame.key := fun e he hkey =>
    hnew (keyBehind_of_live hs hprobe hgen hfree he hkey)
  obtain ⟨r, hr, hrfree⟩ := hs.room
  -- the slot that is written: free, on the walk, and not the last empty one
  have hslot : (∀ idx, d.slotAt (d.probeWriteSlot frame.probe) ≠
      .entry idx) ∧ d.probeWriteSlot frame.probe < d.hashTable.length ∧
      d.WalkReaches frame.probe.hash (d.probeWriteSlot frame.probe) ∧
      ∃ q < d.hashTable.length, q ≠ d.probeWriteSlot frame.probe ∧
        d.slotAt q = .notPresent := by
    rcases probeWriteSlot_cases hfree with
      ⟨_, hfirst, htomb⟩ | ⟨hnone, hsame, _⟩
    · refine ⟨fun idx h => Slot.noConfusion (htomb.symm.trans h), ?_,
        hprobe.tombstone hgen _ hfirst, r, hr, ?_, hrfree⟩
      · exact lt_of_occupied (fun h => Slot.noConfusion (htomb.symm.trans h))
      · rintro rfl
        exact Slot.noConfusion (hrfree.symm.trans htomb)
    · rw [hsame]
      have hreach := hprobe.reaches hs hgen
      refine ⟨fun idx h => Slot.noConfusion (hfree.symm.trans h), ?_, hreach,
        ?_⟩
      · obtain ⟨i, _, hplace, _⟩ := hreach
        rw [← hplace]
        exact position_lt _ _ hs.wellFormed.length_pos
      · rcases hroom with havail | hother
        · rw [hnone] at havail
          exact Bool.noConfusion havail
        · exact hother
  obtain ⟨hentry, hlt, hreach, hother⟩ := hslot
  obtain ⟨value, hvalue⟩ := finishInsert_free hop hentry
  rw [hvalue]
  exact ⟨sound_writeNewAtSlot hs value hlt hentry hreach hprobe.hash hshape
    hkeys hother, evolves_set hlt (fun h => Slot.noConfusion h) rfl rfl, rfl⟩

omit [DecidableEq T] in
/-- A lookup that found its key deletes it at most. -/
theorem finishLookup_found (hs : Sound P d) {s idx : Nat}
    (hslot : d.slotAt s = .entry idx) :
    ∃ d', Machine.finishLookup d frame (some (s, idx)) = some d' ∧
      Sound P d' ∧ Evolves d d' ∧ d'.shape = d.shape := by
  have hdelete : d.deleteEntryAtSlot s = some (d.deleteEntry s idx) := by
    unfold deleteEntryAtSlot
    rw [hslot]
  have hdeleted : Sound P (d.deleteEntry s idx) ∧
      Evolves d (d.deleteEntry s idx) ∧
      (d.deleteEntry s idx).shape = d.shape :=
    ⟨sound_deleteEntry hs hslot,
      evolves_set (slotAt_lt hslot) (fun h => Slot.noConfusion h) rfl rfl, rfl⟩
  unfold Machine.finishLookup
  rcases frame.op with value | value | _ | _ | _
  · exact ⟨d, rfl, hs, Evolves.refl d, rfl⟩
  · exact ⟨d, rfl, hs, Evolves.refl d, rfl⟩
  · exact ⟨_, hdelete, hdeleted⟩
  · exact ⟨_, hdelete, hdeleted⟩
  · exact ⟨d, rfl, hs, Evolves.refl d, rfl⟩

/-! ## The steps -/

/-- A walk that goes on or ends, for an insertion. -/
theorem resumeInsert_inv (h : MachineInv P ⟨d, frame :: rest⟩)
    {r : Probe ⊕ Nat}
    (hr : (∃ probe, r = .inl probe ∧ ProbeInv P d frame.key probe ∧
        probe.tableGeneration = d.tableGeneration) ∨
      ∃ s idx e, r = .inr s ∧ d.slotAt s = .entry idx ∧
        d.entryAt idx = some e) :
    MachineInv P (Machine.resumeInsert d frame rest r) := by
  rcases hr with ⟨probe, rfl, hprobe, hgen⟩ | ⟨s, idx, e, rfl, hslot, he⟩
  · exact h.resume hprobe (fun _ => hgen)
  · obtain ⟨hs, hev, hshape⟩ := @finishInsert_found K V T _ P d frame h.sound
      s idx e hslot he
    exact h.pop hs hev hshape

/-- A walk that goes on or ends, for a lookup. -/
theorem resumeLookup_inv (h : MachineInv P ⟨d, frame :: rest⟩)
    {r : Probe ⊕ Option (Nat × Nat)} {m : Machine K V}
    (hr : (∃ probe, r = .inl probe ∧ ProbeInv P d frame.key probe ∧
        probe.tableGeneration = d.tableGeneration) ∨
      (∃ s idx, r = .inr (some (s, idx)) ∧ d.slotAt s = .entry idx) ∨
      r = .inr none)
    (hm : Machine.resumeLookup d frame rest r = some m) :
    MachineInv P m := by
  rcases hr with ⟨probe, rfl, hprobe, hgen⟩ | ⟨s, idx, rfl, hslot⟩ | rfl
  · cases hm
    exact h.resume hprobe (fun _ => hgen)
  · obtain ⟨d', hd', hs, hev, hshape⟩ :=
      @finishLookup_found K V T _ P d frame h.sound s idx hslot
    simp only [Machine.resumeLookup, hd', Option.map_some] at hm
    cases hm
    exact h.pop hs hev hshape
  · cases hm
    exact h.pop h.sound (Evolves.refl d) rfl

/-- The operation on top waits for an answer. -/
theorem await_inv (h : MachineInv P ⟨d, frame :: rest⟩) (idx : Nat)
    (candidate : K) :
    MachineInv P (Machine.await d frame rest idx candidate) :=
  h.resume (h.frames frame List.mem_cons_self)
    (fun hphase => nomatch hphase)

theorem round_inv (h : MachineInv P ⟨d, frame :: rest⟩)
    (hphase : frame.phase = .probing)
    (hsafe : StepSafe ⟨d, frame :: rest⟩ .round) {m : Machine K V}
    (hm : Machine.round d frame rest = some m) : MachineInv P m := by
  have hprobe := h.frames frame List.mem_cons_self
  have hgen := h.top frame rest rfl hphase
  unfold Machine.round at hm
  by_cases hop : frame.op.inserts = true
  · rw [if_pos hop] at hm
    rcases insertProbeStep_cases hprobe h.sound hgen with
      ⟨probe, hstep, hrest⟩ | ⟨idx, candidate, hstep⟩ |
        ⟨idx, e, hstep, hslot, he⟩ | ⟨hstep, hfree⟩
    · rw [hstep] at hm
      cases hm
      exact resumeInsert_inv h (.inl ⟨probe, rfl, hrest⟩)
    · rw [hstep] at hm
      cases hm
      exact await_inv h idx candidate
    · rw [hstep] at hm
      cases hm
      exact resumeInsert_inv h (.inr ⟨_, idx, e, rfl, hslot, he⟩)
    · -- the walk ends at an empty slot
      rw [hstep] at hm
      cases hm
      obtain ⟨hnew, hroom⟩ := hsafe hphase hop hfree
      obtain ⟨hs, hev, hshape⟩ := finishInsert_safe h.sound hop h.general
        hprobe hgen hfree hnew hroom
      exact h.pop hs hev hshape
  · rw [if_neg hop] at hm
    rcases lookupProbeStep_cases hprobe h.sound hgen with
      ⟨probe, hstep, hrest⟩ | ⟨idx, candidate, hstep⟩ |
        ⟨s, idx, hstep, hslot⟩ | hstep
    · rw [hstep] at hm
      exact resumeLookup_inv h (.inl ⟨probe, rfl, hrest⟩) hm
    · rw [hstep] at hm
      cases hm
      exact await_inv h idx candidate
    · rw [hstep] at hm
      exact resumeLookup_inv h (.inr (.inl ⟨s, idx, rfl, hslot⟩)) hm
    · rw [hstep] at hm
      exact resumeLookup_inv h (.inr (.inr rfl)) hm

theorem answer_inv (h : MachineInv P ⟨d, frame :: rest⟩) (idx : Nat)
    (candidate : K) (equal : Bool) {m : Machine K V}
    (hm : Machine.answer d frame rest idx candidate equal = some m) :
    MachineInv P m := by
  have hprobe := h.frames frame List.mem_cons_self
  unfold Machine.answer at hm
  by_cases hop : frame.op.inserts = true
  · rw [if_pos hop] at hm
    cases hm
    apply resumeInsert_inv h
    rcases insertAfterCompare_cases hprobe h.sound idx candidate equal with
      hgo | ⟨s, e, hend, hslot, he⟩
    · exact .inl hgo
    · exact .inr ⟨s, idx, e, hend, hslot, he⟩
  · rw [if_neg hop] at hm
    apply resumeLookup_inv h _ hm
    rcases lookupAfterCompare_cases hprobe h.sound idx candidate equal with
      hgo | ⟨s, hend, hslot⟩
    · exact .inl hgo
    · exact .inr (.inl ⟨s, idx, hend, hslot⟩)

/-! ## Calls -/

/-- Code that calls leaves no walk under way. -/
theorem not_probing_of_mayCall {m : Machine K V} (h : MachineInv P m)
    (hcall : m.mayCall = true) : ∀ frame ∈ m.frames, frame.phase ≠ .probing := by
  obtain ⟨d, frames⟩ := m
  rcases frames with _ | ⟨top, rest⟩
  · exact fun _ hmem => nomatch hmem
  · intro frame hmem
    rcases List.mem_cons.mp hmem with rfl | hrest
    · exact of_decide_eq_true hcall
    · exact h.waiting frame hrest

/-- The dict has changed while all operations wait. -/
theorem MachineInv.change {m : Machine K V} (h : MachineInv P m)
    (hcall : m.mayCall = true) (hs : Sound P d') (hev : Evolves m.dict d')
    (hstring : d'.shape = .stringKeyed →
      m.frames = [] ∧ Represents (byText P) d' d'.items) :
    MachineInv P { m with dict := d' } := by
  have hwait := not_probing_of_mayCall h hcall
  refine
    { sound := hs
      strings := hstring
      frames := fun frame hmem => (h.frames frame hmem).mono hev
      top := ?_
      waiting := fun frame hmem => hwait frame (List.mem_of_mem_tail hmem) }
  intro frame rest hcons hphase
  exact absurd hphase (hwait frame (by
    show frame ∈ m.frames
    rw [show m.frames = frame :: rest from hcons]
    exact List.mem_cons_self))

omit [DecidableEq T] in
theorem sound_popitem (hs : Sound P d) :
    ∃ d' r, d.popitem = some (d', r) ∧ Sound P d' ∧ Evolves d d' ∧
      d'.shape = d.shape := by
  unfold popitem
  by_cases hzero : d.nValidEntries = 0
  · rw [if_pos hzero]
    exact ⟨d, _, rfl, hs, Evolves.refl d, rfl⟩
  · rw [if_neg hzero]
    have hne : d.live ≠ [] := by
      rw [hs.wellFormed.count] at hzero
      exact fun hnil => hzero (by rw [hnil]; rfl)
    obtain ⟨e, before, after, hlast, hsplit, _⟩ := lastEntryIdx_spec hne
    have he : d.entryAt before.length = some e := by
      rw [entryAt_eq_some, hsplit, List.getElem?_append_right (Nat.le_refl _),
        Nat.sub_self]
      rfl
    obtain ⟨s, hfind, hslot⟩ := findIdx_slot hs.wellFormed he
    have hdelete : d.deleteEntryAtSlot s =
        some (d.deleteEntry s before.length) := by
      unfold deleteEntryAtSlot
      rw [hslot]
    refine ⟨d.deleteEntry s before.length, .ok (e.key, e.value), ?_,
      sound_deleteEntry hs hslot,
      evolves_set (slotAt_lt hslot) (fun h => Slot.noConfusion h) rfl rfl, rfl⟩
    rw [hlast, Option.bind_eq_bind, Option.bind_some, he, Option.bind_eq_bind,
      Option.bind_some, hfind, Option.bind_eq_bind, Option.bind_some, hdelete]
    rfl

/-- A request on the string path, or without a key on a string-keyed dict. -/
theorem perform_strings_inv {m : Machine K V} (h : MachineInv P m)
    (hshape : m.dict.shape = .stringKeyed)
    {request : Request K V}
    (hpath : ∀ key op, request.pending = some (key, op) →
      stringPath P m.dict key = true) {r : Dict K V × Answer K V}
    (hr : perform P m.dict request = some r) :
    MachineInv P { m with dict := r.1 } := by
  obtain ⟨hnil, hrep⟩ := h.strings hshape
  obtain ⟨d', hd', hrep'⟩ :=
    perform_represents (lawful_byText P) hrep request
  rw [perform_byText hpath, hd'] at hr
  cases hr
  rw [← hrep'.items] at hrep'
  refine
    { sound := sound_of_byText hrep'
      strings := fun _ => ⟨hnil, hrep'⟩
      frames := ?_
      top := ?_
      waiting := ?_ }
  · show ∀ frame ∈ m.frames, _
    rw [hnil]
    exact fun _ hmem => nomatch hmem
  · show ∀ frame rest, m.frames = frame :: rest → _
    rw [hnil]
    exact fun _ _ hcons => nomatch hcons
  · show ∀ frame ∈ m.frames.tail, _
    rw [hnil]
    exact fun _ hmem => nomatch hmem

/-- A request without a key, on a general dict. -/
theorem perform_whole_inv {m : Machine K V} (h : MachineInv P m)
    (hcall : m.mayCall = true) (hshape : m.dict.shape = .general)
    {request : Request K V} (hnone : request.pending = none)
    {r : Dict K V × Answer K V} (hr : perform P m.dict request = some r) :
    MachineInv P { m with dict := r.1 } := by
  have hstring : ∀ d' : Dict K V, d'.shape = m.dict.shape →
      d'.shape = .stringKeyed →
        m.frames = [] ∧ Represents (byText P) d' d'.items := by
    intro d' hsame hs
    exact DictShape.noConfusion ((hsame.trans hshape).symm.trans hs)
  cases request with
  | popitem =>
      obtain ⟨d', x, hd', hs, hev, hsame⟩ := sound_popitem h.sound
      simp only [perform, hd', Option.bind_eq_bind, Option.bind_some] at hr
      cases hr
      exact h.change hcall hs hev (hstring d' hsame)
  | clear =>
      cases hr
      exact h.change hcall (sound_clear h.sound) (evolves_of_later rfl)
        (hstring _ rfl)
  | _ => cases hnone

/-- A general operation starts its walk. -/
theorem enterGeneral_inv {m m' : Machine K V} (h : MachineInv P m)
    (hcall : m.mayCall = true) {key : K} {op : Pending V}
    (hm : m.enterGeneral P key op = some m') : MachineInv P m' := by
  have hpromoted := sound_maybePromote h.sound
  have hev := evolves_maybePromote m.dict
  have hshape := maybePromote_shape m.dict
  unfold Machine.enterGeneral at hm
  obtain ⟨d', hd', hs, hev', hsame⟩ : ∃ d' : Dict K V,
      Machine.checkLoad op m.dict.maybePromoteToGeneralShape = some d' ∧
      Sound P d' ∧ Evolves m.dict.maybePromoteToGeneralShape d' ∧
      d'.shape = m.dict.maybePromoteToGeneralShape.shape := by
    unfold Machine.checkLoad
    by_cases hop : op.inserts = true
    · obtain ⟨d', hd', hs, hsame, hcase⟩ := sound_resize hpromoted
      rw [if_pos hop]
      refine ⟨d', hd', hs, ?_, hsame⟩
      rcases hcase with rfl | hgrown
      · exact Evolves.refl _
      · exact evolves_of_later hgrown.generation
    · rw [if_neg hop]
      exact ⟨_, rfl, hpromoted, Evolves.refl _, rfl⟩
  simp only [hd', Option.bind_eq_bind, Option.bind_some] at hm
  cases hm
  have hwait := not_probing_of_mayCall h hcall
  refine
    { sound := hs
      strings := ?_
      frames := ?_
      top := ?_
      waiting := hwait }
  · intro hstring
    exact DictShape.noConfusion ((hsame.trans hshape).symm.trans hstring)
  · intro frame hmem
    rcases List.mem_cons.mp hmem with rfl | hrest
    · exact probeInv_start hs.wellFormed key
    · exact (h.frames frame hrest).mono (hev.trans hev')
  · intro frame rest hcons _
    cases hcons
    rfl

theorem call_inv {m m' : Machine K V} (h : MachineInv P m)
    {request : Request K V} (hm : m.call P request = some m') :
    MachineInv P m' := by
  unfold Machine.call at hm
  by_cases hcall : m.mayCall = true
  · rw [if_pos hcall] at hm
    rcases hpending : request.pending with _ | ⟨key, op⟩
    · simp only [hpending] at hm
      obtain ⟨r, hr, rfl⟩ := Option.map_eq_some_iff.mp hm
      rcases hshape : m.dict.shape with _ | _
      · exact perform_strings_inv h hshape
          (fun key op hsome => by cases hpending.symm.trans hsome) hr
      · exact perform_whole_inv h hcall hshape hpending hr
    · simp only [hpending] at hm
      by_cases hpath : stringPath P m.dict key = true
      · rw [if_pos hpath] at hm
        obtain ⟨r, hr, rfl⟩ := Option.map_eq_some_iff.mp hm
        refine perform_strings_inv h (stringPath_iff.mp hpath).1 ?_ hr
        intro key' op' hsome
        cases hpending.symm.trans hsome
        exact hpath
      · rw [if_neg hpath] at hm
        exact enterGeneral_inv h hcall hm
  · rw [if_neg hcall] at hm
    cases hm

/-! ## One step -/

/-- A safe step keeps the invariant. -/
theorem step_inv {m m' : Machine K V} (h : MachineInv P m)
    {event : Event K V} (hsafe : StepSafe m event)
    (hm : m.step P event = some m') : MachineInv P m' := by
  obtain ⟨d, frames⟩ := m
  cases event with
  | call request => exact call_inv h hm
  | round =>
      rcases frames with _ | ⟨frame, rest⟩
      · exact nomatch hm
      · rcases hphase : frame.phase with _ | ⟨idx, candidate⟩
        · simp only [Machine.step, hphase] at hm
          exact round_inv h hphase hsafe hm
        · simp only [Machine.step, hphase] at hm
          exact nomatch hm
  | answer equal =>
      rcases frames with _ | ⟨frame, rest⟩
      · exact nomatch hm
      · rcases hphase : frame.phase with _ | ⟨idx, candidate⟩
        · simp only [Machine.step, hphase] at hm
          exact nomatch hm
        · simp only [Machine.step, hphase] at hm
          exact answer_inv h idx candidate equal hm
  | raise =>
      rcases frames with _ | ⟨frame, rest⟩
      · exact nomatch hm
      · rcases hphase : frame.phase with _ | ⟨idx, candidate⟩
        · simp only [Machine.step, hphase] at hm
          exact nomatch hm
        · simp only [Machine.step, hphase, Option.some.injEq] at hm
          subst hm
          exact h.pop h.sound (Evolves.refl d) rfl
  | copy =>
      simp only [Machine.step] at hm
      split at hm
      · obtain ⟨d', hcopy, rfl⟩ := Option.map_eq_some_iff.mp hm
        obtain ⟨hs, hstring⟩ :=
          copy_sound h.sound (fun hshape => (h.strings hshape).2) hcopy
        exact
          { sound := hs
            strings := fun hshape => ⟨rfl, hstring hshape⟩
            frames := fun _ hmem => nomatch hmem
            top := fun _ _ hcons => nomatch hcons
            waiting := fun _ hmem => nomatch hmem }
      · exact nomatch hm

omit [DecidableEq K] in
/-- A key object that is behind the walk is there twice after the write. -/
theorem not_repInvariant_of_keyBehind {s : Nat} {hash : Int} {key : K}
    {value : V} {probe : Probe} (h : KeyBehind d probe key) :
    ¬ RepInvariant (d.writeNewAtSlot s hash key value) := by
  intro hrep
  obtain ⟨_, _, _, _, _, idx, e, _, he, hkey⟩ := h
  have hlt := entryAt_lt he
  have hold : (d.writeNewAtSlot s hash key value).entryAt idx = some e := by
    rw [entryAt_writeNewAtSlot, if_neg (by omega), he]
  have hnew : (d.writeNewAtSlot s hash key value).entryAt d.entries.length =
      some ⟨key, value, hash⟩ := by
    rw [entryAt_writeNewAtSlot, if_pos rfl]
  have := hrep.identity _ _ _ _ hold hnew hkey
  omega

omit [DecidableEq K] in
/-- A write into the last empty slot leaves none. -/
theorem not_repInvariant_of_full {hash : Int} {key : K} {value : V}
    {probe : Probe} (hlt : probe.hashIdx < d.hashTable.length)
    (hroom : ¬ LeavesRoom d probe) :
    ¬ RepInvariant
      (d.writeNewAtSlot probe.hashIdx hash key value) := by
  intro hrep
  obtain ⟨q, hq, hfree⟩ := hrep.room
  have hfree : (d.hashTable.set probe.hashIdx (.entry d.entries.length)).getD q
      .notPresent = .notPresent := hfree
  rw [slotAt_set d _ _ q hlt] at hfree
  split at hfree
  · exact Slot.noConfusion hfree
  · rename_i hne
    apply hroom
    refine .inr ⟨q, ?_, Ne.symm hne, hfree⟩
    have hq : q < (d.hashTable.set probe.hashIdx
      (.entry d.entries.length)).length := hq
    rw [List.length_set] at hq
    exact hq

/-- An unsafe step writes, and the representation invariant is lost. -/
theorem not_repInvariant_of_not_safe {m : Machine K V} (h : MachineInv P m)
    {event : Event K V} (hnotsafe : ¬ StepSafe m event) :
    ∃ m', m.step P event = some m' ∧ ¬ RepInvariant m'.dict := by
  obtain ⟨d, frames⟩ := m
  unfold StepSafe at hnotsafe
  split at hnotsafe
  · rename_i frame rest hframes
    have hframes : frames = frame :: rest := hframes
    subst hframes
    rw [Classical.not_imp, Classical.not_imp, Classical.not_imp] at hnotsafe
    obtain ⟨hphase, hop, hfree, hbad⟩ := hnotsafe
    have hprobe := h.frames frame List.mem_cons_self
    have hgen := h.top frame rest rfl hphase
    have hlt : frame.probe.hashIdx < d.hashTable.length := by
      obtain ⟨i, _, hplace, _⟩ := hprobe.reaches h.sound hgen
      rw [← hplace]
      exact position_lt _ _ h.sound.wellFormed.length_pos
    have hstep : d.insertProbeStep frame.key frame.probe =
        .answer (d.probeWriteSlot frame.probe) := by
      unfold insertProbeStep
      rw [hfree]
    have hwrite : ∀ idx, d.slotAt (d.probeWriteSlot frame.probe) ≠
        .entry idx := by
      intro idx hidx
      rcases probeWriteSlot_cases hfree with ⟨_, _, hs⟩ | ⟨_, _, hs⟩
      · exact Slot.noConfusion (hs.symm.trans hidx)
      · exact Slot.noConfusion (hs.symm.trans hidx)
    obtain ⟨value, hvalue⟩ := finishInsert_free hop hwrite
    refine ⟨⟨Machine.finishInsert d frame (d.probeWriteSlot frame.probe),
      rest⟩, ?_, ?_⟩
    · simp only [Machine.step, hphase, Machine.round, if_pos hop, hstep]
      rfl
    · show ¬ RepInvariant
        (Machine.finishInsert d frame (d.probeWriteSlot frame.probe))
      rw [hvalue]
      by_cases hbehind : KeyBehind d frame.probe frame.key
      · exact not_repInvariant_of_keyBehind hbehind
      · have hroom : ¬ LeavesRoom d frame.probe :=
          fun hroom => hbad ⟨hbehind, hroom⟩
        rcases probeWriteSlot_cases hfree with
          ⟨havail, _⟩ | ⟨_, hsame, _⟩
        · exact absurd (.inl havail) hroom
        · rw [hsame]
          exact not_repInvariant_of_full hlt hroom
  · exact absurd trivial hnotsafe

/-! ## Runs -/

/-- When the steps of a run are safe, its states satisfy the invariant. -/
theorem run_inv : ∀ (before : List (Event K V)) {m m' : Machine K V},
    MachineInv P m →
    (∀ first event last s, first ++ event :: last = before →
      Machine.run P first m = some s → StepSafe s event) →
    Machine.run P before m = some m' → MachineInv P m' := by
  intro before
  induction before with
  | nil =>
      intro m m' h _ hrun
      cases hrun
      exact h
  | cons event events ih =>
      intro m m' h hsafe hrun
      obtain ⟨m₁, hstep, hrest⟩ := Option.bind_eq_some_iff.mp hrun
      have h₁ := step_inv h (hsafe [] event events m rfl rfl) hstep
      apply ih h₁ _ hrest
      intro first event' last s hsplit hs
      apply hsafe (event :: first) event' last s
      · rw [List.cons_append, hsplit]
      · show (m.step P event).bind (Machine.run P first) = some s
        rw [hstep]
        exact hs

/-- When the states of a run satisfy the representation invariant, its steps
are safe. -/
theorem run_safe : ∀ (events : List (Event K V)) {m : Machine K V},
    MachineInv P m →
    (∀ first last s, first ++ last = events →
      Machine.run P first m = some s → RepInvariant s.dict) →
    ∀ first event last s, first ++ event :: last = events →
      Machine.run P first m = some s → StepSafe s event := by
  intro events
  induction events with
  | nil =>
      intro m _ _ first event last s hsplit
      exact absurd hsplit (List.append_ne_nil_of_right_ne_nil _ (by simp))
  | cons head events ih =>
      intro m h hrep first event last s hsplit hs
      have hsafe : StepSafe m head := by
        by_contra hnotsafe
        obtain ⟨m', hstep, hnot⟩ := not_repInvariant_of_not_safe h hnotsafe
        apply hnot
        apply hrep [head] events m' rfl
        show (m.step P head).bind (Machine.run P []) = some m'
        rw [hstep]
        rfl
      rcases first with _ | ⟨head', first⟩
      · cases hsplit
        cases hs
        exact hsafe
      · obtain ⟨rfl, htail⟩ := List.cons.inj hsplit
        obtain ⟨m₁, hstep, hrest⟩ := Option.bind_eq_some_iff.mp hs
        apply ih (step_inv h hsafe hstep) _ first event last s htail hrest
        intro first' last' s' hsplit' hs'
        apply hrep (head' :: first') last' s'
        · rw [List.cons_append, hsplit']
        · show (m.step P head').bind (Machine.run P first') = some s'
          rw [hstep]
          exact hs'

end Steps

/-- The states of a run, from a fresh dict, satisfy the representation
invariant exactly when its steps are safe: whenever the walk of an insertion
comes to an empty slot, its key object was not stored behind the walk, and the
write leaves an empty slot. -/
theorem run_repInvariant_iff (P : KeyProtocol K T)
    (events : List (Event K V)) :
    (∀ before after m, before ++ after = events →
      Machine.run P before Machine.start = some m → RepInvariant m.dict) ↔
    ∀ before event after m, before ++ event :: after = events →
      Machine.run P before Machine.start = some m → StepSafe m event := by
  constructor
  · exact run_safe events machineInv_start
  · intro hsafe before after m hsplit hrun
    refine (run_inv before machineInv_start ?_ hrun).sound.repInvariant
    intro first event last s hfirst hs
    apply hsafe first event (last ++ after) s _ hs
    rw [← hsplit, ← hfirst, List.append_assoc, List.cons_append]

/-- Keys that all fall on one slot. -/
def collidingKeys : KeyProtocol Nat Nat :=
  { text := fun _ => none
    stringHashNormalized := fun _ => 0
    otherHash := fun _ => 0
    otherEqual := fun a b => decide (a = b) }

/-- Two keys, of which the first is deleted, and the insertion of a third.
While it compares the second key, the third is inserted, over the tombstone
that the walk has recorded. -/
def doubleInsert : List (Event Nat Nat) :=
  [ .call (.setItem 1 10), .round
  , .call (.setItem 2 20), .round, .answer false, .round
  , .call (.delItem 1), .round
  , .call (.setItem 3 30), .round, .round
  , .call (.setItem 3 31), .round, .round, .answer false, .round
  , .answer false, .round ]

/-- The dict then holds the third key twice. -/
theorem not_forall_repInvariant :
    ¬ ∀ (P : KeyProtocol Nat Nat) (events : List (Event Nat Nat))
        (m : Machine Nat Nat),
      Machine.run P events Machine.start = some m → RepInvariant m.dict := by
  intro h
  have hrun : ∃ m : Machine Nat Nat,
      Machine.run collidingKeys doubleInsert Machine.start = some m ∧
      m.dict.entryAt 2 = some ⟨3, 31, 0⟩ ∧
      m.dict.entryAt 3 = some ⟨3, 30, 0⟩ := ⟨_, rfl, rfl, rfl⟩
  obtain ⟨m, hm, h₂, h₃⟩ := hrun
  exact absurd ((h _ _ m hm).identity _ _ _ _ h₂ h₃ rfl) (by decide)

end CloverVM.BuiltinTypes.Dict
