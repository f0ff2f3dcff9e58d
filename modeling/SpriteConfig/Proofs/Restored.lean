import SpriteConfig.Proofs.Coherent
/-!
# A property that is taken back

A new line of a subject is the line that a lookup of the property finds, and no subject stands on it.
So to delete the property again undoes the insertion: the lines close up, and the subjects that were
moved down by one line are moved up by one.
-/
namespace SpriteConfig

namespace Registry

variable (r : Registry) (after : Handle)

theorem gone_shiftAfter : (r.shiftAfter after 1).gone after.next (after.next + 1) = [] := by
  rw [gone, List.map_eq_nil_iff, List.filter_eq_nil_iff]
  intro s hs hin
  obtain ⟨s, -, rfl⟩ := List.mem_map.mp hs
  have hne := s.handle.moved_ne_next after
  cases hmoved : s.handle.moved after 1 with
  | root => simp [standsIn, hmoved] at hin
  | line n =>
    simp only [standsIn, hmoved, Bool.and_eq_true, decide_eq_true_eq] at hin
    have hn : n = after.next := Nat.le_antisymm (Nat.le_of_lt_succ hin.2) hin.1
    exact hne (hn ▸ hmoved)

theorem moveAfter_shifted (s : Subject) :
    moveAfter (after.next + 1) [] (· - 1) (shifted after s) = s := by
  obtain ⟨id, kind, handle, parent⟩ := s
  have hparent : (parent.filter fun p => !([] : List SubjectId).contains p) = parent := by
    cases parent <;> rfl
  cases handle with
  | root => simp only [moveAfter, shifted, Handle.moved, hparent]
  | line n =>
    rw [shifted_line]
    simp only [moveAfter, hparent]
    by_cases hle : after.next ≤ n
    · rw [if_pos hle, if_pos (Nat.succ_le_succ hle), Nat.add_sub_cancel]
    · rw [if_neg hle, if_neg fun hlt => hle (Nat.le_of_succ_le hlt)]

theorem deleteLines_shiftAfter :
    (r.shiftAfter after 1).deleteLines after.next (after.next + 1) = r := by
  have hsubjects :
      ((r.shiftAfter after 1).deleteLines after.next (after.next + 1)).subjects = r.subjects := by
    rw [subjects_deleteLines, gone_shiftAfter, List.filter_eq_self.mpr fun _ _ => by rfl,
      Nat.add_sub_cancel_left, shiftAfter, List.map_map]
    calc
      _ = r.subjects.map id := List.map_congr_left fun s _ => moveAfter_shifted after s
      _ = r.subjects := List.map_id _
  have hnext := (r.shiftAfter after 1).nextId_deleteLines after.next (after.next + 1)
  exact congrArg₂ Registry.mk hsubjects hnext

end Registry

namespace Document

variable {d d' : Document} {h : Handle} {name : Text} {s : SubjectId}

/-- The deletion of the line of an insertion takes it back. -/
theorem Step.deleteLines_eq {indent : Text} {values : List Text}
    (hstep : d.Step (.insert h indent name values) d') :
    d'.deleteLines h.next (h.next + 1) = .ok d := by
  cases hstep with
  | insert hle =>
    have hlen : h.next + 1 ≤ (d.lines.insertIdx h.next (Line.make indent name values)).length := by
      rw [List.length_insertIdx_of_le_length hle]
      exact Nat.succ_le_succ hle
    simp only [take_append_cons_drop hle]
    rw [deleteLines, if_pos ⟨Nat.le_succ _, hlen⟩]
    simp only [← List.eraseIdx_eq_take_drop_succ, List.eraseIdx_insertIdx_self,
      Registry.deleteLines_shiftAfter]

theorem findDirect?_eq_none (hs : d.registry.handle? s = some h) (hh : h.Inside d)
    (hnone : d.hasDirect s name = .ok false) : d.findDirect? h name = .ok none := by
  obtain ⟨found, hfound, -⟩ := exists_findDirect? hh name
  rw [hasDirect_of_handle? hs hfound, Except.ok.injEq, Option.isSome_eq_false_iff,
    Option.isNone_iff_eq_none] at hnone
  rw [hfound, hnone]

theorem Orderly.exists_restored (ho : d.Orderly) (hs : d.registry.handle? s = some h)
    (hname : name ≠ []) (hnone : d.hasDirect s name = .ok false) (values : List Text) :
    ∃ d', d.writeProperty s name values = .ok (d', true) ∧
      d'.deleteProperty s name = .ok (d, true) := by
  have hh := ho.defined hs
  have hfound := findDirect?_eq_none hs hh.inside hnone
  obtain ⟨indent, -, hi, hdeeper, hwriting⟩ := ho.valid.exists_insertion ho.nests hh hfound
  obtain ⟨d', hstep⟩ : ∃ d', d.Step (.insert h indent name values) d' :=
    ⟨_, .insert hh.inside.next_le⟩
  have hwrite := writeProperty_eq_of_step hs (hwriting values) hstep
  have hs' := handle?_of_writingOf hs (hwriting values) hstep
  have hlines : d'.lines =
      d.lines.take h.next ++ Line.make indent name values :: d.lines.drop h.next := by
    cases hstep
    rfl
  have hfound' := findDirect?_inserted hh hi hname values hdeeper hlines
  have hdelete : d'.deleteProperty s name = .ok (d, true) := by
    rw [deleteProperty, directLine?, hs']
    dsimp only
    rw [hfound', Checked.ok_bind]
    dsimp only
    rw [hstep.deleteLines_eq]
    rfl
  exact ⟨d', hwrite, hdelete⟩

/-- After any edits, a property that a subject does not have is written and deleted again, and the
document is the one that it was. -/
theorem performAll_restores (source : Text) {options : Options} (ho : options.Nests)
    (es : List Edit) {name : Text} (hname : name ≠ []) (values : List Text) :
    ∃ d, (parse source options).performAll es = .ok d ∧
      ∀ s h, d.registry.handle? s = some h → d.hasDirect s name = .ok false →
        ∃ d', d.writeProperty s name values = .ok (d', true) ∧
          d'.deleteProperty s name = .ok (d, true) := by
  obtain ⟨d, hd, horderly⟩ := (orderly_parse source ho).exists_performAll es
  refine ⟨d, hd, fun s h hs hnone => ?_⟩
  exact horderly.exists_restored hs hname hnone values

/-- A tab-indented property is inserted above a sprite and an input with a layout, and is deleted. -/
theorem performAll_restores_tabs :
    let source := "input a\n\tsprite b\n\tsprite c\ninput d".toList
    let es := [Edit.deleteSubject 3, Edit.setLayout 4 .grid]
    let name := "trim".toList
    ({} : Options).Nests ∧ name ≠ [] ∧
      ∃ d, (parse source).performAll es = .ok d ∧
        d.registry.handle? 1 = some (.line 0) ∧ d.hasDirect 1 name = .ok false ∧
        ∃ d', d.writeProperty 1 name ["none".toList] = .ok (d', true) ∧
          d'.deleteProperty 1 name = .ok (d, true) := by
  intro source es name
  have hname : name ≠ [] := by decide
  obtain ⟨d, hd, hrestores⟩ :=
    performAll_restores source Options.nests_default es hname ["none".toList]
  have hlookups : (fun d => (d.registry.handle? 1, d.hasDirect 1 name)) <$>
      (parse source).performAll es = .ok (some (.line 0), .ok false) := by decide
  rw [hd, Checked.map_ok, Except.ok.injEq, Prod.mk.injEq] at hlookups
  obtain ⟨hinput, hnone⟩ := hlookups
  exact ⟨Options.nests_default, hname, d, hd, hinput, hnone, hrestores 1 _ hinput hnone⟩

end Document
end SpriteConfig
