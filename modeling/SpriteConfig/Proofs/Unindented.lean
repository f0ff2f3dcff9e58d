import SpriteConfig.Proofs.Frame
/-!
# Writing before the first line

A new property of the sheet before the first line stands on the first line, and it is not indented.
From then on only the definitions that are not indented are direct for that sheet: an indented one
that no definition before it was nested less deep than is found no more.
-/
namespace SpriteConfig
namespace Document

variable {d d' : Document} {name other : Text} {values : List Text} {new l : Line} {i : Nat}
  {s : SubjectId} {found : Option (Line × Nat)}

def unindented (d : Document) : List (Line × Nat) :=
  d.lines.zipIdx.filter fun x => x.1.isDefinition && x.1.level = 0

theorem directLine_root_iff :
    DirectLine d.lines .root i l ∧ l.level = 0 ↔
      d.lines[i]? = some l ∧ l.isDefinition = true ∧ l.level = 0 := by
  constructor
  · rintro ⟨hl, hlevel⟩
    exact ⟨hl.line_eq, hl.isDefinition, hlevel⟩
  · rintro ⟨hl, hd, hlevel⟩
    refine ⟨⟨hl, hd, Nat.zero_le i, nofun, fun j m _ _ _ _ => ?_⟩, hlevel⟩
    rw [hlevel]
    exact Nat.zero_le m.level

theorem enumerates_unindented (d : Document) :
    Enumerates (· < ·) (fun i l => DirectLine d.lines .root i l ∧ l.level = 0) d.unindented := by
  refine ⟨(pairwise_zipIdx d.lines 0).sublist List.filter_sublist, fun l i => ?_⟩
  rw [directLine_root_iff, unindented, List.mem_filter, List.mem_zipIdx_iff_getElem?]
  simp only [Bool.and_eq_true, decide_eq_true_eq]

theorem findDefinition?_unindented (hfound : d.findDirect? .root other = .ok found)
    (hlevel : ∀ l n, found = some (l, n) → l.level = 0) :
    findDefinition? other d.unindented = found := by
  have henum := enumerates_unindented d
  cases found with
  | none =>
    obtain ⟨xs, hxs, hdirect⟩ := exists_enumerates_direct (Handle.inside_root d)
    rw [findDirect?_of_directAt hxs, Except.ok.injEq, hdirect.findDefinition?_eq_none_iff] at hfound
    apply henum.findDefinition?_eq_none_iff.mpr
    intro i l hl
    exact hfound i l hl.1
  | some x =>
    obtain ⟨hl, hname, hnone⟩ := (findDirect?_eq_some_iff (Handle.inside_root d)).mp hfound
    apply (henum.findDefinition?_eq_some_iff fun m n => Nat.lt_asymm).mpr
    refine ⟨⟨hl, hlevel _ _ rfl⟩, hname, fun j m hlt hm => ?_⟩
    exact hnone j m hlt hm.1

/-- After a line has been inserted before all others that is not indented, another definition is found
if it is not indented. -/
theorem findDirect?_root_of_inserted (hnew : InsertedAt d.lines d'.lines Handle.root.next new)
    (hd : new.isDefinition = true) (hlevel : new.level = 0) (hother : new.definition ≠ other) :
    d'.findDirect? .root other =
      .ok ((findDefinition? other d.unindented).map fun x => (x.1, shiftFrom 0 x.2)) := by
  have hsame : ∀ j l, DirectLine d'.lines .root (shiftFrom 0 j) l ↔
      DirectLine d.lines .root j l ∧ l.level = 0 := by
    intro j l
    apply (hnew.directLine_shiftFrom_iff (h := .root)).trans
    refine and_congr_right fun _ => ⟨fun hle => ?_, fun hzero _ _ _ => ?_⟩
    · have hle := hle (Nat.le_refl 0) (Nat.zero_le j) hd
      rwa [hlevel, Nat.le_zero] at hle
    · rw [hzero]
      exact Nat.zero_le new.level
  obtain ⟨ys, hys, henum⟩ := exists_enumerates_direct (Handle.inside_root d')
  rw [findDirect?_of_directAt hys, Except.ok.injEq]
  apply (enumerates_unindented d).findDefinition?_eq_map henum (fun m n => Nat.lt_asymm)
  · intro m n hlt
    exact shiftFrom_lt_shiftFrom_iff.mp hlt
  · intro i l hname
    constructor
    · intro hl
      rcases eq_or_exists_shiftFrom 0 i with rfl | ⟨j, rfl⟩
      · obtain rfl : new = l := Option.some.inj (hnew.getElem?_self.symm.trans hl.line_eq)
        exact absurd hname hother
      · exact ⟨j, rfl, (hsame j l).mp hl⟩
    · rintro ⟨j, rfl, hl⟩
      exact (hsame j l).mpr hl

theorem handle?_root_parse {source : Text} {options : Options}
    (hsheet : (parse source options).lines.any Registry.isSheetLine = false) :
    (parse source options).registry.handle? 0 = some .root := by
  have hsheet' : (readSource source).any Registry.isSheetLine = false := hsheet
  change (Registry.ofLines (readSource source)).handle? 0 = some .root
  simp only [Registry.ofLines, hsheet']
  rfl

/-- What a write of a property by the sheet before the first line does to another property of that
sheet, of which the line `found` was found before. -/
structure KeepsUnindented (d d' : Document) (s : SubjectId) (written other : Text)
    (found : Option (Line × Nat)) : Prop where
  direct?_eq : d.hasDirect s written = .ok true ∨ (∀ l n, found = some (l, n) → l.level = 0) →
    d'.direct? s other = d.direct? s other
  direct?_inserted : d.hasDirect s written = .ok false →
    d'.direct? s other = foundParameters (findDefinition? other d.unindented)

theorem keepsUnindented_of_inserted (hs : d.registry.handle? s = some .root)
    (hwritten : d.findDirect? .root name = .ok none) (hname : name ≠ []) (hne : other ≠ name)
    (hstep : d.Step (.insert .root [] name values) d')
    (hfound : d.findDirect? .root other = .ok found) :
    d.KeepsUnindented d' s name other found := by
  have hindent : Text.IsIndentation [] := by simp [Text.IsIndentation]
  have hdef := Line.make_definition [] name values
  have hd : (Line.make [] name values).isDefinition = true := Line.isDefinition_make hname values
  have hlevel : (Line.make [] name values).level = 0 := Line.level_make hindent hname values
  have hother : (Line.make [] name values).definition ≠ other := by
    rw [hdef]
    exact hne.symm
  have hdirect : d'.direct? s other = foundParameters (findDefinition? other d.unindented) := by
    have hs' : d'.registry.handle? s = some .root := by
      cases hstep
      exact Registry.handle?_shiftAfter hs .root
    have hfound' := findDirect?_root_of_inserted hstep.insertedAt hd hlevel hother
    rw [direct?_of_handle? hs' hfound', foundParameters_map]
  refine ⟨fun hkept => ?_, fun _ => hdirect⟩
  have hhas := hasDirect_of_handle? hs hwritten
  have hfoundLevel := hkept.resolve_left (by simp [hhas])
  rw [hdirect, findDefinition?_unindented hfound hfoundLevel, direct?_of_handle? hs hfound]

theorem keepsUnindented_of_rewritten {k : Nat} (hs : d.registry.handle? s = some .root)
    (hwritten : d.findDirect? .root name = .ok (some (l, k))) (hne : other ≠ name)
    (hstep : d.Step (.rewrite k values) d') (found : Option (Line × Nat)) :
    d.KeepsUnindented d' s name other found := by
  obtain ⟨hl, -, rfl⟩ := getElem?_of_findDirect? (Handle.inside_root d) hwritten
  have hother : ∀ m, d.findDirect? .root other ≠ .ok (some (m, k)) := by
    intro m hfound'
    obtain ⟨hm, -, rfl⟩ := getElem?_of_findDirect? (Handle.inside_root d) hfound'
    obtain rfl : l = m := Option.some.inj (hl.symm.trans hm)
    exact hne rfl
  have hhas := hasDirect_of_handle? hs hwritten
  refine ⟨fun _ => ?_, fun hnone => by simp [hhas] at hnone⟩
  cases hstep with
  | rewrite hl hset =>
    have ha := Line.alike_setParameters hset
    exact direct?_eq_of_rewritten hl ha rfl rfl hs (Handle.defined_root d) hother

theorem exists_keepsUnindented (hs : d.registry.handle? s = some .root)
    (hshaped : ∀ l ∈ d.lines, l.Shaped) (hname : name ≠ []) (values : List Text) :
    ∃ d', d.writeProperty s name values = .ok (d', true) ∧ ∀ other found, other ≠ name →
      d.findDirect? .root other = .ok found → d.KeepsUnindented d' s name other found := by
  obtain ⟨written, hwritten, -⟩ := exists_findDirect? (Handle.inside_root d) name
  cases written with
  | none =>
    have hindent : d.indentBelow .root = .ok [] := rfl
    have hwriting := writingOf_of_indentBelow hwritten hindent values
    obtain ⟨d', hstep⟩ : ∃ d', d.Step (.insert .root [] name values) d' :=
      ⟨_, .insert (Nat.zero_le _)⟩
    refine ⟨d', writeProperty_eq_of_step hs hwriting hstep, fun other found hne hfound => ?_⟩
    exact keepsUnindented_of_inserted hs hwritten hname hne hstep hfound
  | some x =>
    obtain ⟨hl, -, -⟩ := getElem?_of_findDirect? (Handle.inside_root d) hwritten
    have hs' := hshaped x.1 (List.mem_of_getElem? hl)
    obtain ⟨l', hset, -, -⟩ := hs'.exists_setParameters values
    have hwriting := writingOf_of_findDirect? hwritten values
    obtain ⟨d', hstep⟩ : ∃ d', d.Step (.rewrite x.2 values) d' := ⟨_, .rewrite hl hset⟩
    refine ⟨d', writeProperty_eq_of_step hs hwriting hstep, fun other found hne _ => ?_⟩
    exact keepsUnindented_of_rewritten hs hwritten hne hstep found

/-- A property that is written for the sheet before the first line leaves another property of that
sheet as it is, if a line is written anew for it, or if the other property is not there or stands on
a line that is not indented. If a line is inserted, then what the sheet has under the other name is
what the first definition of it says that is not indented. -/
theorem writeProperty_root_keeps_unindented (source : Text) (options : Options)
    (hsheet : (parse source options).lines.any Registry.isSheetLine = false) {name : Text}
    (hname : name ≠ []) (values : List Text) :
    (parse source options).registry.handle? 0 = some .root ∧
      ∃ d', (parse source options).writeProperty 0 name values = .ok (d', true) ∧
        ∀ other, other ≠ name → ∃ found,
          (parse source options).findDirect? .root other = .ok found ∧
          ((parse source options).hasDirect 0 name = .ok true ∨
              (∀ l n, found = some (l, n) → l.level = 0) →
            ∃ value, (parse source options).direct? 0 other = .ok value ∧
              d'.direct? 0 other = .ok value) ∧
          ((parse source options).hasDirect 0 name = .ok false →
            ∃ value, foundParameters (findDefinition? other (parse source options).unindented) =
              .ok value ∧ d'.direct? 0 other = .ok value) := by
  have hs := handle?_root_parse hsheet
  have hshaped : ∀ l ∈ (parse source options).lines, l.Shaped := fun l => shaped_of_mem_readLines
  obtain ⟨d', hwrite, hkeeps⟩ := exists_keepsUnindented hs hshaped hname values
  refine ⟨hs, d', hwrite, fun other hne => ?_⟩
  obtain ⟨found, hfound, hat⟩ := exists_findDirect? (Handle.inside_root (parse source options)) other
  have hkeeps := hkeeps other found hne hfound
  refine ⟨found, hfound, fun hkept => ?_, fun hnone => ?_⟩
  · obtain ⟨value, hvalue⟩ : ∃ value, foundParameters found = .ok value := by
      apply exists_foundParameters
      intro l n hl
      exact hshaped l (List.mem_of_getElem? (hat l n hl).1)
    have hdirect := (direct?_of_handle? hs hfound).trans hvalue
    exact ⟨value, hdirect, (hkeeps.direct?_eq hkept).trans hdirect⟩
  · obtain ⟨value, hvalue⟩ : ∃ value,
        foundParameters (findDefinition? other (parse source options).unindented) = .ok value := by
      apply exists_foundParameters
      intro l n hl
      have hmem := (mem_of_findDefinition? hl).1
      have hdirect := ((enumerates_unindented _).mem_iff l n).mp hmem
      exact hshaped l (List.mem_of_getElem? hdirect.1.line_eq)
    exact ⟨value, hvalue, (hkeeps.direct?_inserted hnone).trans hvalue⟩

/-- Of a property that is first written on an indented line, and then on one that is not indented, the
second line is read when another property has been inserted. -/
theorem writeProperty_root_keeps_unindented_later :
    let d := parse "  padding 2\n  trim none\npadding 3\ninput a".toList
    let name := "scale".toList
    let other := "padding".toList
    d.lines.any Registry.isSheetLine = false ∧ name ≠ [] ∧ other ≠ name ∧
      d.hasDirect 0 name = .ok false ∧ ∃ d', d.writeProperty 0 name ["1".toList] = .ok (d', true) ∧
        ∃ value, foundParameters (findDefinition? other d.unindented) = .ok value ∧
          d'.direct? 0 other = .ok value := by
  intro d name other
  have hsheet : d.lines.any Registry.isSheetLine = false := by decide
  have hname : name ≠ [] := by decide
  have hne : other ≠ name := by decide
  have hnone : d.hasDirect 0 name = .ok false := by decide
  obtain ⟨-, d', hwrite, hkeeps⟩ :=
    writeProperty_root_keeps_unindented _ {} hsheet hname ["1".toList]
  obtain ⟨found, -, -, hinserted⟩ := hkeeps other hne
  exact ⟨hsheet, hname, hne, hnone, d', hwrite, hinserted hnone⟩

/-- An indented property is hidden by a new one before it. -/
theorem direct?_hidden_by_root_write :
    let d := parse "  padding 2\n  input a".toList
    d.lines.any Registry.isSheetLine = false ∧ d.registry.handle? 0 = some .root ∧
      d.direct? 0 "padding".toList = .ok (some ["2".toList]) ∧
      ∃ d', d.writeProperty 0 "scale".toList ["1".toList] = .ok (d', true) ∧
        d'.direct? 0 "padding".toList = .ok none := by
  refine ⟨by decide, by decide, by decide, _, rfl, by decide⟩

end Document
end SpriteConfig
