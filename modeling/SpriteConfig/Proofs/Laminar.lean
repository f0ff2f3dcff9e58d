import SpriteConfig.Proofs.Frame
import SpriteConfig.Proofs.Success
/-!
# Blocks within blocks

A block goes as far as its last line that is nested deeper, before the first definition that closes
it. What closes the block of a line closes the blocks of the lines in it as well, and what is nested
deeper than they are is nested deeper than the line. So two subjects on lines have nothing in common,
or one of them stands in the block of the other with all that belongs to it; and a line is a direct
property of one subject at most.
-/
namespace SpriteConfig

section Levels

variable {level level' : Nat} {l : Line}

theorem Line.isNestedDeeper_of_le (h : l.isNestedDeeper level' = true) (hle : level ≤ level') :
    l.isNestedDeeper level = true := by
  simp only [isNestedDeeper, Bool.or_eq_true, Bool.and_eq_true, decide_eq_true_eq] at h ⊢
  exact h.imp_right fun hdeeper => ⟨hdeeper.1, hle.trans_lt hdeeper.2⟩

theorem Line.not_closes_of_le (h : l.closes level' = false) (hle : level ≤ level') :
    l.closes level = false := by
  rw [Bool.eq_false_iff] at h ⊢
  intro hcloses
  simp only [closes, ne_eq, Bool.and_eq_true, decide_eq_true_eq] at h hcloses
  exact h ⟨hcloses.1, hcloses.2.trans hle⟩

end Levels

namespace Document

variable {d : Document} {own : Line} {i m n : Nat}

/-- A line is in the block of another one if a line from it on is nested deeper, and no line up to
that one closes the block. -/
theorem blockHas_iff (hown : d.lines[n]? = some own) :
    d.BlockHas (.line n) i ↔
      n < i ∧ ∃ j l, i ≤ j ∧ d.lines[j]? = some l ∧ l.isNestedDeeper own.level = true ∧
        ∀ k a, n < k → k ≤ j → d.lines[k]? = some a → a.closes own.level = false := by
  have hlen : d.BlockHas (.line n) i ↔
      n < i ∧ i - (n + 1) < (blockBelow own.level (d.lines.drop (n + 1))).length := by
    simp only [BlockHas, block_eq hown, Except.ok.injEq, exists_eq_left']
    omega
  rw [hlen, lt_length_blockBelow_iff]
  simp only [List.getElem?_drop]
  refine and_congr_right fun hni => ⟨?_, ?_⟩
  · rintro ⟨j, l, hij, hl, hnested, hopen⟩
    refine ⟨n + 1 + j, l, by omega, hl, hnested, fun k a hnk hkj ha => ?_⟩
    have hk : n + 1 + (k - (n + 1)) = k := Nat.add_sub_cancel' hnk
    exact hopen (k - (n + 1)) a (by omega) (hk.symm ▸ ha)
  · rintro ⟨j, l, hij, hl, hnested, hopen⟩
    have hj : n + 1 + (j - (n + 1)) = j := Nat.add_sub_cancel' (hni.trans_le hij)
    refine ⟨j - (n + 1), l, by omega, hj.symm ▸ hl, hnested, fun k a hkj ha => ?_⟩
    exact hopen (n + 1 + k) a (by omega) (by omega) ha

theorem BlockHas.of_le (h : d.BlockHas (.line n) i) (hown : d.lines[n]? = some own) (hnm : n < m)
    (hmi : m ≤ i) : d.BlockHas (.line n) m := by
  rw [blockHas_iff hown] at h ⊢
  obtain ⟨-, j, l, hij, hl⟩ := h
  exact ⟨hnm, j, l, hmi.trans hij, hl⟩

theorem BlockHas.trans {inner : Line} (h : d.BlockHas (.line n) m)
    (hown : d.lines[n]? = some own) (hinner : d.lines[m]? = some inner)
    (hd : inner.isDefinition = true) (hi : d.BlockHas (.line m) i) : d.BlockHas (.line n) i := by
  rw [blockHas_iff hown] at h ⊢
  rw [blockHas_iff hinner] at hi
  obtain ⟨hnm, j, l, hmj, -, -, hopen⟩ := h
  obtain ⟨hmi, j', l', hij', hl', hnested', hopen'⟩ := hi
  have hlevel : own.level ≤ inner.level := by
    have hnot := hopen m inner hnm hmj hinner
    simp only [Line.closes, hd, Bool.true_and, decide_eq_false_iff_not, Nat.not_le] at hnot
    exact hnot.le
  refine ⟨hnm.trans hmi, j', l', hij', hl', Line.isNestedDeeper_of_le hnested' hlevel, ?_⟩
  intro k a hnk hkj' ha
  rcases Nat.lt_or_ge m k with hmk | hkm
  · exact Line.not_closes_of_le (hopen' k a hmk hkj' ha) hlevel
  · exact hopen k a hnk (hkm.trans hmj) ha

/-- Whether line `i` is line `n` or belongs to the subject there. -/
def Spans (d : Document) (n i : Nat) : Prop := i = n ∨ d.BlockHas (.line n) i

private theorem spans_of_lt (hm : (Handle.line m).Defined d) (hn : (Handle.line n).Defined d)
    (hmn : m < n) :
    (∀ i, ¬ (d.Spans m i ∧ d.Spans n i)) ∨ ∀ i, d.Spans n i → d.BlockHas (.line m) i := by
  obtain ⟨own, hown, -⟩ := hm m rfl
  obtain ⟨inner, hinner, hd⟩ := hn n rfl
  by_cases hin : d.BlockHas (.line m) n
  · right
    rintro i (rfl | hi)
    · exact hin
    · exact hin.trans hown hinner hd hi
  · left
    rintro i ⟨hmi, hni⟩
    have hle : n ≤ i := by
      rcases hni with rfl | hni
      · exact Nat.le_refl i
      · exact ((blockHas_iff hinner).mp hni).1.le
    rcases hmi with rfl | hmi
    · exact Nat.not_lt_of_le hle hmn
    · exact hin (hmi.of_le hown hmn hle)

/-- Two subjects on lines have no line in common, or one stands in the block of the other with all
that belongs to it. -/
theorem spans_laminar (hm : (Handle.line m).Defined d) (hn : (Handle.line n).Defined d)
    (hmn : m ≠ n) :
    (∀ i, ¬ (d.Spans m i ∧ d.Spans n i)) ∨ (∀ i, d.Spans n i → d.BlockHas (.line m) i) ∨
      ∀ i, d.Spans m i → d.BlockHas (.line n) i := by
  rcases Nat.lt_or_gt_of_ne hmn with hlt | hgt
  · exact (spans_of_lt hm hn hlt).imp_right .inl
  · rcases spans_of_lt hn hm hgt with hapart | hin
    · exact .inl fun i hi => hapart i hi.symm
    · exact .inr (.inr hin)

/-- After any edits that succeed, of any two subjects on lines one stands in the block of the other
with all that belongs to it, or they have no line in common; and no line is a direct property of two
subjects, the sheet before the first line included. -/
theorem performAll_laminar (source : Text) (options : Options) {es : List Edit}
    (hd : (parse source options).performAll es = .ok d) {s t : SubjectId} (hst : s ≠ t) :
    (∀ m n, d.registry.handle? s = some (.line m) → d.registry.handle? t = some (.line n) →
      (∃ b, d.block (.line m) = .ok b) ∧ (∃ b, d.block (.line n) = .ok b) ∧
        ((∀ i, ¬ (d.Spans m i ∧ d.Spans n i)) ∨ (∀ i, d.Spans n i → d.BlockHas (.line m) i) ∨
          ∀ i, d.Spans m i → d.BlockHas (.line n) i)) ∧
    ∀ g h, d.registry.handle? s = some g → d.registry.handle? t = some h → ∀ name name',
      ∃ found found', d.findDirect? g name = .ok found ∧ d.findDirect? h name' = .ok found' ∧
        ∀ l i l' i', found = some (l, i) → found' = some (l', i') → i ≠ i' := by
  have hcoherent := coherent_of_performAll (Registry.coherent_ofLines (readSource source)) hd
  have hapart : ∀ {g h}, d.registry.handle? s = some g → d.registry.handle? t = some h → g ≠ h := by
    rintro g _ hs ht rfl
    exact hst (hcoherent.eq_of_handle? hs ht)
  constructor
  · intro m n hs ht
    have hm := defined_of_coherent hcoherent hs
    have hn := defined_of_coherent hcoherent ht
    obtain ⟨start, block, hblock, -⟩ := exists_block hm.inside
    obtain ⟨start', block', hblock', -⟩ := exists_block hn.inside
    have hmn : m ≠ n := fun heq => hapart hs ht (congrArg Handle.line heq)
    exact ⟨⟨_, hblock⟩, ⟨_, hblock'⟩, spans_laminar hm hn hmn⟩
  · intro g h hs ht name name'
    have hg := defined_of_coherent hcoherent hs
    have hh := defined_of_coherent hcoherent ht
    obtain ⟨found, hfound, -⟩ := exists_findDirect? hg.inside name
    obtain ⟨found', hfound', -⟩ := exists_findDirect? hh.inside name'
    refine ⟨found, found', hfound, hfound', ?_⟩
    rintro l i l' _ rfl rfl rfl
    exact hapart hs ht (eq_of_findDirect? hfound hfound' hg hh)

/-- A comment before a deeper sprite, a sprite nested less deep than the one before it, and a blank
line between two inputs. -/
theorem performAll_laminar_odd_indentation :
    let source := "sheet\n  input a\n   # deep\n\n      sprite b\n   sprite c\n# end\n\n  input d"
    let d := parse source.toList
    let es := [Edit.writeProperty 4 "trim".toList ["none".toList]]
    ∃ d', d.performAll es = .ok d' ∧ (1 : SubjectId) ≠ 3 ∧
      d'.registry.handle? 1 = some (.line 1) ∧ d'.registry.handle? 3 = some (.line 5) ∧
      ((∀ i, ¬ (d'.Spans 1 i ∧ d'.Spans 5 i)) ∨ (∀ i, d'.Spans 5 i → d'.BlockHas (.line 1) i) ∨
        ∀ i, d'.Spans 1 i → d'.BlockHas (.line 5) i) := by
  intro source d es
  have hne : (1 : SubjectId) ≠ 3 := by decide
  have hhandle : (fun d => (d.registry.handle? 1, d.registry.handle? 3)) <$> d.performAll es =
      .ok (some (.line 1), some (.line 5)) := by decide
  obtain ⟨d', hd', h⟩ := Checked.map_eq_ok.mp hhandle
  obtain ⟨hinput, hsprite⟩ := Prod.mk.inj h
  have hlaminar := performAll_laminar source.toList {} hd' hne
  exact ⟨d', hd', hne, hinput, hsprite, (hlaminar.1 1 5 hinput hsprite).2.2⟩

end Document
end SpriteConfig
