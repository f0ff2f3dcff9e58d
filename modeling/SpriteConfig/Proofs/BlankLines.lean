import SpriteConfig.Proofs.Laminar
import SpriteConfig.Proofs.Rebuild
import SpriteConfig.Proofs.Remark
/-!
# Blank lines that define something

A line is blank when it holds nothing but white space, and it is skipped when it holds nothing but
spaces and tabs. The two are not the same: other white space, such as a no-break space or a carriage
return, is read as a definition. Such a line introduces no subject, but it ends the blocks before it
as any other definition does.
-/
namespace SpriteConfig

section Lines

variable {l : Line} {t : Text} {level : Nat}

theorem Text.isRemark_iff_of_isBlank (hblank : t.isBlank = true) :
    t.IsRemark ↔ t.IsIndentation := by
  constructor
  · rintro (hindent | hcomment)
    · exact hindent
    · obtain ⟨rest, hrest⟩ := List.head?_eq_some_iff.mp hcomment
      have hmem : '#' ∈ t := (List.dropWhile_sublist isIndent).subset (hrest ▸ List.mem_cons_self)
      have hspace : isSpace '#' = true := List.all_eq_true.mp hblank '#' hmem
      cases hspace
  · exact .inl

theorem Line.parse_of_not_isRemark (ht : ¬ t.IsRemark) (inherited : Nat) :
    (parse inherited t).isDefinition = true ∧
      (parse inherited t).level = (t.takeWhile Text.isIndent).length := by
  have hhead := List.head?_dropWhile_not Text.isIndent t
  rw [parse]
  split
  · next hbody => exact absurd (.inl (List.dropWhile_eq_nil_iff.mp hbody)) ht
  · next hbody => exact absurd (.inr (by rw [hbody]; rfl)) ht
  · next hnil _ =>
    obtain ⟨c, body, hbody⟩ := List.exists_cons_of_ne_nil hnil
    rw [hbody] at hhead
    have hc : Text.isIndent c = false := by simpa using hhead
    simp [isDefinition, hbody, hc]

/-- A line that says what its text says defines something unless it is a comment or holds spaces
and tabs alone. -/
theorem Line.Settled.isDefinition_iff (hs : l.Settled) :
    l.isDefinition = true ↔ ¬ l.text.IsRemark := by
  rw [isDefinition, (hs 0).definition_eq, ← isDefinition]
  by_cases ht : l.text.IsRemark
  · simp [parse_of_isRemark ht, isDefinition, ht]
  · simp [(parse_of_not_isRemark ht 0).1, ht]

theorem Line.Settled.isDefinition_iff_of_isBlank (hs : l.Settled) (hblank : l.isBlank = true) :
    l.isDefinition = true ↔ ¬ l.text.IsIndentation := by
  rw [hs.isDefinition_iff, Text.isRemark_iff_of_isBlank hblank]

theorem Line.Settled.not_closes_iff_of_isBlank (hs : l.Settled) (hblank : l.isBlank = true) :
    l.closes level = false ↔
      l.text.IsIndentation ∨ level < (l.text.takeWhile Text.isIndent).length := by
  have hd := hs.isDefinition_iff_of_isBlank hblank
  rw [closes, Bool.and_eq_false_imp, decide_eq_false_iff_not, Nat.not_le, hd]
  by_cases hindent : l.text.IsIndentation
  · simp [hindent]
  · have hremark : ¬ l.text.IsRemark := by rwa [Text.isRemark_iff_of_isBlank hblank]
    have hlevel := (hs 0).level_eq (hd.mpr hindent)
    rw [(parse_of_not_isRemark hremark 0).2] at hlevel
    simp [hindent, hlevel]

end Lines

/-- Whether nothing but line `n` can end the block of line `m` before line `j`. -/
structure ReachesPast (ls : List Line) (own : Line) (m n j : Nat) : Prop where
  own_eq : ls[m]? = some own
  lt : m < n
  le : n ≤ j
  exists_nested : ∃ a, ls[j]? = some a ∧ a.isNestedDeeper own.level = true
  not_closes : ∀ k a, m < k → k ≤ j → k ≠ n → ls[k]? = some a → a.closes own.level = false

namespace Document

variable {d : Document} {own l : Line} {m n j : Nat}

theorem blockHas_iff_of_reachesPast (h : ReachesPast d.lines own m n j)
    (hl : d.lines[n]? = some l) : d.BlockHas (.line m) j ↔ l.closes own.level = false := by
  constructor
  · intro hin
    exact hin.not_closes h.own_eq h.lt h.le hl
  · intro hopen
    obtain ⟨a, ha, hnested⟩ := h.exists_nested
    refine (blockHas_iff h.own_eq).mpr ⟨h.lt.trans_le h.le, j, a, Nat.le_refl j, ha, hnested, ?_⟩
    intro k b hmk hkj hb
    by_cases hkn : k = n
    · obtain rfl : l = b := Option.some.inj (hl.symm.trans (hkn ▸ hb))
      exact hopen
    · exact h.not_closes k b hmk hkj hkn hb

theorem handle?_ne_of_isBlank {source : Text} {options : Options}
    (hl : (parse source options).lines[n]? = some l) (hblank : l.isBlank = true) (s : SubjectId) :
    (parse source options).registry.handle? s ≠ some (.line n) := by
  intro hs
  obtain ⟨subject, hmem, -, hhandle⟩ := Registry.exists_of_handle? hs
  obtain ⟨own, hown, hdef⟩ := Registry.stands_ofLines _ subject hmem n hhandle
  obtain rfl : l = own := Option.some.inj (hl.symm.trans hown)
  have hshaped : l.Shaped := shaped_of_mem_readLines (List.mem_of_getElem? hl)
  exact hshaped.isProperty_of_isBlank hblank subject.kind hdef

/-- A blank line of a text defines nothing exactly if it holds spaces and tabs alone. In any case no
subject stands on it. What would belong to a line before it but for the blank line does belong to
that line exactly if the blank line holds spaces and tabs alone or is indented deeper. -/
theorem blankLine_defines_nothing_iff (source : Text) (options : Options)
    (hl : (parse source options).lines[n]? = some l) (hblank : l.isBlank = true) :
    let d := parse source options
    (l.isDefinition = false ↔ l.text.IsIndentation) ∧
      (∀ s, d.registry.handle? s ≠ some (.line n)) ∧
      ∀ own m j, ReachesPast d.lines own m n j →
        (d.BlockHas (.line m) j ↔
          l.text.IsIndentation ∨ own.level < (l.text.takeWhile Text.isIndent).length) := by
  intro d
  have hsettled : l.Settled := (settled_of_mem_readSource (List.mem_of_getElem? hl)).1
  refine ⟨?_, handle?_ne_of_isBlank hl hblank, fun own m j h => ?_⟩
  · rw [← Bool.not_eq_true, hsettled.isDefinition_iff_of_isBlank hblank, not_not]
  · rw [blockHas_iff_of_reachesPast h hl, hsettled.not_closes_iff_of_isBlank hblank]

/-- The sprite is nested deeper than the sheet and the input, but the no-break space is nested
deeper than the sheet alone. -/
theorem blankLine_defines_nothing_iff_no_break_space :
    let d := parse "sheet\n   input a\n \t\u00A0\r\n    sprite b".toList
    let l : Line := ⟨" \t\u00A0\r".toList, 2, "\u00A0\r".toList⟩
    let sheet : Line := ⟨"sheet".toList, 0, "sheet".toList⟩
    let input : Line := ⟨"   input a".toList, 3, "input".toList⟩
    d.lines[2]? = some l ∧ l.isBlank = true ∧ ReachesPast d.lines sheet 0 2 3 ∧
      ReachesPast d.lines input 1 2 3 ∧ l.isDefinition = true ∧
      (∀ s, d.registry.handle? s ≠ some (.line 2)) ∧ d.BlockHas (.line 0) 3 ∧
      ¬ d.BlockHas (.line 1) 3 := by
  intro d l sheet input
  have hl : d.lines[2]? = some l := by decide
  have hblank : l.isBlank = true := by decide
  have hsheet : ReachesPast d.lines sheet 0 2 3 := by
    refine ⟨by decide, by decide, by decide, ⟨_, rfl, by decide⟩, fun k a hk hk' hne ha => ?_⟩
    obtain rfl | rfl : k = 1 ∨ k = 3 := by omega
    all_goals
      obtain rfl := Option.some.inj ha
      decide
  have hinput : ReachesPast d.lines input 1 2 3 := by
    refine ⟨by decide, by decide, by decide, ⟨_, rfl, by decide⟩, fun k a hk hk' hne ha => ?_⟩
    obtain rfl : k = 3 := by omega
    obtain rfl := Option.some.inj ha
    decide
  obtain ⟨hdefines, hnone, hblocks⟩ := blankLine_defines_nothing_iff _ {} hl hblank
  refine ⟨hl, hblank, hsheet, hinput, ?_, hnone, (hblocks _ _ _ hsheet).mpr (by decide), ?_⟩
  · rw [← Bool.not_eq_false, hdefines]
    decide
  · rw [hblocks _ _ _ hinput]
    decide

/-- A line that holds a no-break space alone is blank, and defines something. -/
theorem blankLine_defines_no_break_space :
    ¬ ∀ l ∈ readSource "input a\n\u00A0\n  sprite b".toList,
      l.isBlank = true → l.isDefinition = false := by
  decide

end Document
end SpriteConfig
