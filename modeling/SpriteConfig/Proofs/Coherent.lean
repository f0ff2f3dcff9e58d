import Mathlib.Data.List.Nodup
import Mathlib.Data.List.Perm.Subperm
import SpriteConfig.Proofs.Numbered
import SpriteConfig.Proofs.Property
/-!
# Coherent registries

In a coherent registry the subjects stand in order on lines of their kind, belong to subjects that
stand before them, and have numbers of their own. A registry is coherent when its lines have just
been read, and every edit keeps it so; a number that was given up is not given out again.
-/
namespace SpriteConfig
namespace Registry

variable {r r' r'' : Registry} {ls : List Line}

/-- Whether the subjects fit their lines and each other. -/
structure Coherent (r : Registry) (ls : List Line) : Prop where
  ordered : r.Ordered
  standing : r.Stands ls Suits
  isSheet : ∀ s ∈ r.subjects, s.handle = .root → s.kind = .sheet
  owned : ∀ s ∈ r.subjects, ∀ p, s.parent = some p →
    ∃ q ∈ r.subjects, q.id = p ∧ s.kind.owner? = some q.kind ∧ q.Precedes s
  nodup : (r.subjects.map Subject.id).Nodup
  id_lt : ∀ s ∈ r.subjects, s.id < r.nextId

theorem Coherent.exists_handle_eq (h : r.Coherent ls) {s : Subject} (hs : s ∈ r.subjects)
    (hkind : s.kind ≠ .sheet) : ∃ n, s.handle = .line n := by
  cases hh : s.handle with
  | root => exact absurd (h.isSheet s hs hh) hkind
  | line n => exact ⟨n, rfl⟩

theorem Coherent.length_le (h : r.Coherent ls) : r.subjects.length ≤ r.nextId := by
  have hsub : r.subjects.map Subject.id ⊆ List.range r.nextId := by
    intro id hid
    obtain ⟨s, hs, rfl⟩ := List.mem_map.mp hid
    exact List.mem_range.mpr (h.id_lt s hs)
  simpa using (h.nodup.subperm hsub).length_le

theorem coherent_ofLines (ls : List Line) : (ofLines ls).Coherent ls := by
  have hscanned := scanned_ofLines ls
  have hids := ofLines_map_id ls
  refine ⟨hscanned.ordered, hscanned.stands, fun s hs => hscanned.isSheet hs,
    fun s hs p => hscanned.owned hs, hids ▸ List.nodup_range, ?_⟩
  intro s hs
  rw [← List.mem_range, ← hids]
  exact List.mem_map_of_mem hs

theorem Coherent.insert (h : r.Coherent ls) {after : Handle} (hle : after.next ≤ ls.length)
    (l : Line) :
    (r.shiftAfter after 1).Coherent (ls.take after.next ++ l :: ls.drop after.next) := by
  refine ⟨h.ordered.shiftAfter after, h.standing.insert hle l, ?_, ?_, ?_, ?_⟩
  · intro s hs hh
    obtain ⟨s, hold, rfl⟩ := List.mem_map.mp hs
    exact h.isSheet s hold (Handle.eq_root_of_moved hh)
  · intro s hs p hp
    obtain ⟨s, hold, rfl⟩ := List.mem_map.mp hs
    obtain ⟨q, hq, hid, hkind, hbefore⟩ := h.owned s hold p hp
    exact ⟨_, List.mem_map_of_mem hq, hid, hkind, Handle.before_moved hbefore after⟩
  · rw [shiftAfter, List.map_map]
    exact h.nodup
  · intro s hs
    obtain ⟨s, hold, rfl⟩ := List.mem_map.mp hs
    exact h.id_lt s hold

theorem Coherent.delete (h : r.Coherent ls) {start stop : Nat} (hle : start ≤ stop)
    (hstop : stop ≤ ls.length) :
    (r.deleteLines start stop).Coherent (ls.take start ++ ls.drop stop) := by
  refine ⟨h.ordered.deleteLines hle, h.standing.delete hle hstop, ?_, ?_, ?_, ?_⟩
  · intro s hs hh
    obtain ⟨s, hold, -, rfl⟩ := mem_deleteLines.mp hs
    exact h.isSheet s hold (eq_root_of_moveAfter hh)
  · intro s hs p hp
    obtain ⟨s, hold, hskept, rfl⟩ := mem_deleteLines.mp hs
    obtain ⟨hp, hpkept⟩ := Option.filter_eq_some_iff.mp hp
    obtain ⟨q, hq, rfl, hkind, hbefore⟩ := h.owned s hold p hp
    have hqkept : q.id ∉ r.gone start stop := by simpa using hpkept
    exact ⟨_, mem_deleteLines.mpr ⟨q, hq, hqkept, rfl⟩, rfl, hkind,
      precedes_moveAfter hle hbefore hq hold hqkept hskept⟩
  · rw [subjects_deleteLines, List.map_map]
    exact h.nodup.sublist (List.filter_sublist.map Subject.id)
  · intro s hs
    obtain ⟨s, hold, -, rfl⟩ := mem_deleteLines.mp hs
    rw [nextId_deleteLines]
    exact h.id_lt s hold

theorem Coherent.set (h : r.Coherent ls) {n : Nat} {l l' : Line} (hl : ls[n]? = some l)
    (ha : l.Alike l') : r.Coherent (ls.set n l') := by
  refine { h with standing := h.standing.set hl ?_ }
  rintro id kind ⟨hdef, hlevel⟩
  refine ⟨ha.definition_eq ▸ hdef, fun hkind => ?_⟩
  rw [← ha.level_eq (Line.isDefinition_of_eq_token hdef), hlevel hkind]

theorem Coherent.add (h : r.Coherent ls) {n : Nat} {l : Line} (hl : ls[n]? = some l)
    (hdef : l.definition = SubjectKind.sprite.token) (hfree : ∀ s ∈ r.subjects, s.handle ≠ .line n)
    {input : Subject} (hinput : input ∈ r.subjects) (hkind : input.kind = .input)
    (hbefore : input.handle.before (.line n) = true) :
    (r.add .sprite (.line n) (some input.id)).Coherent ls := by
  refine ⟨h.ordered.add hfree _, h.standing.add hl ⟨hdef, by simp⟩ _, ?_, ?_, ?_, ?_⟩
  · intro s hs hh
    rcases mem_insertOrdered.mp hs with rfl | hs
    · simp at hh
    · exact h.isSheet s hs hh
  · intro s hs p hp
    rcases mem_insertOrdered.mp hs with rfl | hs
    · exact ⟨input, mem_insertOrdered.mpr (.inr hinput), Option.some.inj hp, by rw [hkind]; rfl,
        hbefore⟩
    · obtain ⟨q, hq, hrest⟩ := h.owned s hs p hp
      exact ⟨q, mem_insertOrdered.mpr (.inr hq), hrest⟩
  · have hperm := (perm_insertOrdered ⟨r.nextId, .sprite, .line n, some input.id⟩ r.subjects).map
      Subject.id
    refine hperm.nodup_iff.mpr (List.nodup_cons.mpr ⟨?_, h.nodup⟩)
    intro hmem
    obtain ⟨s, hs, hid⟩ := List.mem_map.mp hmem
    exact Nat.ne_of_lt (h.id_lt s hs) hid
  · intro s hs
    rcases mem_insertOrdered.mp hs with rfl | hs
    · exact Nat.lt_succ_self _
    · exact Nat.lt_succ_of_lt (h.id_lt s hs)

theorem Coherent.eq_of_handle? (h : r.Coherent ls) {id id' : SubjectId} {handle : Handle}
    (hs : r.handle? id = some handle) (hs' : r.handle? id' = some handle) : id = id' := by
  obtain ⟨s, hmem, rfl, hhandle⟩ := exists_of_handle? hs
  obtain ⟨s', hmem', rfl, hhandle'⟩ := exists_of_handle? hs'
  have hinj := List.inj_on_of_nodup_map h.ordered.nodup_handles hmem hmem'
  rw [hinj (hhandle.trans hhandle'.symm)]

/-- Whether a registry can come after another one: no number below the next one is given out. -/
structure Grows (r r' : Registry) : Prop where
  nextId_le : r.nextId ≤ r'.nextId
  mem_of_lt : ∀ s' ∈ r'.subjects, s'.id < r.nextId → ∃ s ∈ r.subjects, s.id = s'.id

theorem Grows.refl (r : Registry) : r.Grows r := ⟨Nat.le_refl _, fun s hs _ => ⟨s, hs, rfl⟩⟩

theorem Grows.trans (h : r.Grows r') (h' : r'.Grows r'') : r.Grows r'' := by
  refine ⟨h.nextId_le.trans h'.nextId_le, fun s'' hs'' hlt => ?_⟩
  obtain ⟨s', hs', hid⟩ := h'.mem_of_lt s'' hs'' (hlt.trans_le h.nextId_le)
  obtain ⟨s, hs, hid'⟩ := h.mem_of_lt s' hs' (hid ▸ hlt)
  exact ⟨s, hs, hid'.trans hid⟩

theorem find?_eq_none_iff {id : SubjectId} : r.find? id = none ↔ ∀ s ∈ r.subjects, s.id ≠ id := by
  simp [find?]

theorem Grows.find?_eq_none (h : r.Grows r') {id : SubjectId} (hlt : id < r.nextId)
    (hid : r.find? id = none) : r'.find? id = none := by
  rw [find?_eq_none_iff] at hid ⊢
  rintro s' hs' rfl
  obtain ⟨s, hs, hid'⟩ := h.mem_of_lt s' hs' hlt
  exact hid s hs hid'

end Registry

namespace Document

variable {d d' : Document}

theorem Step.grows {c : Change} (hstep : d.Step c d') : d.registry.Grows d'.registry := by
  refine ⟨hstep.nextId_le, fun s' hs' hid => ?_⟩
  cases hstep with
  | insert hle =>
    obtain ⟨s, hs, rfl⟩ := List.mem_map.mp hs'
    exact ⟨s, hs, rfl⟩
  | rewrite hl hset => exact ⟨s', hs', rfl⟩
  | delete hle hstop =>
    obtain ⟨s, hs, -, rfl⟩ := Registry.mem_deleteLines.mp hs'
    exact ⟨s, hs, rfl⟩
  | register hlt =>
    rcases Registry.mem_insertOrdered.mp hs' with rfl | hs
    · exact absurd hid (Nat.lt_irrefl _)
    · exact ⟨s', hs, rfl⟩

/-- A change keeps a registry coherent, if a sprite that it registers fits. -/
theorem Step.coherent {c : Change} (hstep : d.Step c d') (h : d.registry.Coherent d.lines)
    (hc : c.Registers → c.Fits d) : d'.registry.Coherent d'.lines := by
  cases hstep with
  | insert hle => exact h.insert hle _
  | rewrite hl hset => exact h.set hl (Line.alike_setParameters hset)
  | delete hle hstop => exact h.delete hle hstop
  | register hlt =>
    obtain ⟨⟨l, hl, hdef⟩, hfree, input, hinput, rfl, hkind, hbefore⟩ := hc trivial
    exact h.add hl hdef hfree hinput hkind hbefore

theorem defined_of_coherent (h : d.registry.Coherent d.lines) {s : SubjectId} {handle : Handle}
    (hs : d.registry.handle? s = some handle) : handle.Defined d := by
  obtain ⟨subject, hmem, -, rfl⟩ := Registry.exists_of_handle? hs
  intro n hn
  obtain ⟨l, hl, hdef, -⟩ := h.standing subject hmem n hn
  exact ⟨l, hl, Line.isDefinition_of_eq_token hdef⟩

theorem Valid.exists_performAll_coherent (hv : d.Valid) (h : d.registry.Coherent d.lines)
    (es : List Edit) :
    ∃ d', d.performAll es = .ok d' ∧ d'.Valid ∧ d'.registry.Coherent d'.lines ∧
      d.registry.Grows d'.registry := by
  obtain ⟨cs, d', hperform, hfollows⟩ := hv.exists_follows es
  have hstep : ∀ {d₁ d₂ : Document} {c : Change},
      d₁.Valid ∧ d₁.registry.Coherent d₁.lines ∧ d.registry.Grows d₁.registry →
      c.Fits d₁ → True → d₁.Step c d₂ →
      d₂.Valid ∧ d₂.registry.Coherent d₂.lines ∧ d.registry.Grows d₂.registry := by
    rintro d₁ d₂ c ⟨hv, h, hgrows⟩ hfits - hstep
    exact ⟨hv.step hfits hstep, hstep.coherent h fun _ => hfits, hgrows.trans hstep.grows⟩
  exact ⟨d', hperform, hfollows.preserves hstep ⟨hv, h, .refl _⟩ fun _ _ => trivial⟩

theorem Valid.coherent_of_applyAll (hv : d.Valid) (h : d.registry.Coherent d.lines)
    {es : List Edit} (hd' : d.applyAll es = .ok d') :
    d'.Valid ∧ d'.registry.Coherent d'.lines ∧ d.registry.Grows d'.registry := by
  obtain ⟨d₁, hd₁, hfacts⟩ := hv.exists_performAll_coherent h es
  obtain rfl : d₁ = d' := Except.ok.inj (hd₁.symm.trans (performAll_of_applyAll hd'))
  exact hfacts

/-- What documents that have been read and edited have in common. -/
structure Orderly (d : Document) : Prop where
  valid : d.Valid
  nests : d.options.Nests
  coherent : d.registry.Coherent d.lines

theorem orderly_parse (source : Text) {options : Options} (ho : options.Nests) :
    (parse source options).Orderly :=
  ⟨valid_parse source ho.toIndents, ho, Registry.coherent_ofLines _⟩

theorem Orderly.step (h : d.Orderly) {c : Change} (hfits : c.Fits d) (hstep : d.Step c d') :
    d'.Orderly :=
  ⟨h.valid.step hfits hstep, hstep.options_eq ▸ h.nests, hstep.coherent h.coherent fun _ => hfits⟩

theorem Orderly.exists_performAll (h : d.Orderly) (es : List Edit) :
    ∃ d', d.performAll es = .ok d' ∧ d'.Orderly := by
  obtain ⟨cs, d', hperform, hfollows⟩ := h.valid.exists_follows es
  have hstep : ∀ {d₁ d₂ : Document} {c : Change}, d₁.Orderly → c.Fits d₁ → True →
      d₁.Step c d₂ → d₂.Orderly :=
    fun h hfits _ hstep => h.step hfits hstep
  exact ⟨d', hperform, hfollows.preserves hstep h fun _ _ => trivial⟩

theorem Orderly.defined (h : d.Orderly) {s : SubjectId} {handle : Handle}
    (hs : d.registry.handle? s = some handle) : handle.Defined d :=
  defined_of_coherent h.coherent hs

/-- After any edits the registry is coherent: in order, with the sheet before the first line first,
each subject alone on a line of its kind, owners listed before what belongs to them, and every
number new. A number that has left the registry never names a subject again. The edits stop only if
the counter of subjects runs over, so all numbers are words of 32 bits; and as long as they do not
stop, a counter that starts again at zero does not either. -/
theorem run_coherent (source : Text) {options : Options} (ho : options.Indents)
    (es : List Edit) :
    (∃ d, (parse source options).performAll es = .ok d ∧ run source options es = d.numbered) ∧
    ∀ d, run source options es = .ok d →
      d.registry.Coherent d.lines ∧ d.registry.IsNumbered ∧
      (parse source options).applyAllWrapping es = .ok d ∧
      (∀ s ∈ d.registry.subjects, s.handle = .root → d.registry.subjects.head? = some s) ∧
      (d.registry.subjects.map Subject.handle).Nodup ∧
      (∀ s ∈ d.registry.subjects, ∀ p, s.parent = some p →
        ∃ q, q.id = p ∧ s.kind.owner? = some q.kind ∧ [q, s].Sublist d.registry.subjects) ∧
      ∀ es' es'' d' d'', d.applyAll es' = .ok d' → d'.applyAll es'' = .ok d'' →
        ∀ id, (d.registry.find? id).isSome → d'.registry.find? id = none →
          d''.registry.find? id = none := by
  obtain ⟨d, hd, hv, h, -⟩ := (valid_parse source ho).exists_performAll_coherent
    (Registry.coherent_ofLines _) es
  have hrun := run_eq_numbered ho hd
  refine ⟨⟨d, hd, hrun⟩, fun d₁ hd₁ => ?_⟩
  obtain ⟨hnumbered, rfl⟩ := numbered_eq_ok_iff.mp (hrun.symm.trans hd₁)
  refine ⟨h, hnumbered, applyAllWrapping_of_run hd₁, fun s hs => h.ordered.head?_eq_root hs,
    h.ordered.nodup_handles, ?_, ?_⟩
  · intro s hs p hp
    obtain ⟨q, hq, hid, hkind, hbefore⟩ := h.owned s hs p hp
    exact ⟨q, hid, hkind, h.ordered.sublist_pair hq hs hbefore⟩
  · intro es' es'' d' d'' hd' hd'' id hid hleft
    obtain ⟨hv', h', hgrows⟩ := hv.coherent_of_applyAll h hd'
    obtain ⟨-, -, hgrows'⟩ := hv'.coherent_of_applyAll h' hd''
    obtain ⟨s, hs⟩ := Option.isSome_iff_exists.mp hid
    obtain ⟨hmem, rfl⟩ := Registry.mem_of_find? hs
    exact hgrows'.find?_eq_none ((h.id_lt s hmem).trans_le hgrows.nextId_le) hleft

/-- A sprite outlives its input, and the sprite of a layout that was written twice gets a number
each time. -/
theorem run_coherent_orphan :
    let source := "input a\nsprite b\ninput c\n  grid 8 8".toList
    let es : List Edit := [.deleteSubject 1, .setLayout 3 .sprite]
    ({} : Options).Indents ∧
      ∃ d d' d'', run source {} es = .ok d ∧
        d.applyAll [.deleteProperty 3 "sprite".toList] = .ok d' ∧
        d'.applyAll [.setLayout 3 .grid, .setLayout 3 .sprite] = .ok d'' ∧
        d.registry.Coherent d.lines ∧
        (∀ s ∈ d.registry.subjects, s.handle = .root → d.registry.subjects.head? = some s) ∧
        (d.registry.subjects.map Subject.handle).Nodup ∧
        (∀ s ∈ d.registry.subjects, ∀ p, s.parent = some p →
          ∃ q, q.id = p ∧ s.kind.owner? = some q.kind ∧ [q, s].Sublist d.registry.subjects) ∧
        ∀ id, (d.registry.find? id).isSome → d'.registry.find? id = none →
          d''.registry.find? id = none := by
  intro source es
  have hok : (run source {} (es ++ [.deleteProperty 3 "sprite".toList] ++
      [.setLayout 3 .grid, .setLayout 3 .sprite])).isOk = true := by decide
  obtain ⟨d'', hd''⟩ := Checked.exists_of_isOk hok
  rw [run_append, run_append] at hd''
  obtain ⟨d', hd', hd''⟩ := Checked.bind_eq_ok.mp hd''
  obtain ⟨d, hd, hd'⟩ := Checked.bind_eq_ok.mp hd'
  obtain ⟨-, hfacts⟩ := run_coherent source Options.indents_default es
  obtain ⟨h, -, -, hroot, hhandles, howners, hnumbers⟩ := hfacts d hd
  exact ⟨Options.indents_default, d, d', d'', hd, hd', hd'', h, hroot, hhandles, howners,
    hnumbers _ _ d' d'' hd' hd''⟩

end Document
end SpriteConfig
