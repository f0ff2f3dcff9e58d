import SpriteConfig.Proofs.Deleted
import SpriteConfig.Proofs.Laminar
/-!
# What the deletion of a block leaves alone

A block is followed by a line that closes it, or by nothing that is nested deeper. So what stands
after the block is no deeper than the subject unless a line that is left hides it, and the lines of
the block hide nothing that the line of the subject does not hide.
-/
namespace SpriteConfig

/-- Whether what belongs to the subject on line `n` has ended before line `stop`. The blank line
that is deleted with a block may stand before `stop` as well. -/
structure BlockEnds (ls : List Line) (n : Nat) (own : Line) (stop : Nat) : Prop where
  own_eq : ls[n]? = some own
  isDefinition : own.isDefinition = true
  lt : n < stop
  le_length : stop ≤ ls.length
  not_closes : ∀ k a, n < k → k < stop → ls[k]? = some a → a.closes own.level = false
  exists_closes : ∀ j m, stop ≤ j → ls[j]? = some m → m.isNestedDeeper own.level = true →
    ∃ k a, stop ≤ k ∧ k ≤ j ∧ ls[k]? = some a ∧ a.closes own.level = true

section Blocks

variable {ls ls' : List Line} {n m i stop start count level : Nat} {own l inner : Line}
  {h : Handle}

theorem Line.closes_eq_true_iff :
    l.closes level = true ↔ l.isDefinition = true ∧ l.level ≤ level := by
  rw [closes, Bool.and_eq_true, decide_eq_true_eq]

theorem Line.isNestedDeeper_of_isDefinition (hd : l.isDefinition = true) :
    l.isNestedDeeper level = true := by
  rw [isNestedDeeper, hd, Bool.true_or]

theorem BlockEnds.lt_level (hends : BlockEnds ls n own stop) (hni : n < i) (hi : i < stop)
    (hl : ls[i]? = some l) (hd : l.isDefinition = true) : own.level < l.level := by
  by_contra hlevel
  have hcloses : l.closes own.level = true :=
    Line.closes_eq_true_iff.mpr ⟨hd, Nat.le_of_not_lt hlevel⟩
  exact absurd (hends.not_closes i l hni hi hl) (by simp [hcloses])

theorem BlockEnds.le_level (hends : BlockEnds ls n own stop) (hni : n ≤ i) (hi : i < stop)
    (hl : ls[i]? = some l) (hd : l.isDefinition = true) : own.level ≤ l.level := by
  rcases Nat.eq_or_lt_of_le hni with rfl | hlt
  · obtain rfl : own = l := Option.some.inj (hends.own_eq.symm.trans hl)
    exact Nat.le_refl _
  · exact (hends.lt_level hlt hi hl hd).le

/-- What no line from `stop` on up to a definition is nested less deep than, is no deeper than the
subject, if the definition is not nested less deep either. -/
theorem BlockEnds.level_le (hends : BlockEnds ls n own stop) (hi : stop ≤ i)
    (hl : ls[i]? = some l) (hd : l.isDefinition = true) (hle : level ≤ l.level)
    (hout : ∀ k a, stop ≤ k → k < i → ls[k]? = some a → a.isDefinition = true → level ≤ a.level) :
    level ≤ own.level := by
  obtain ⟨k, a, hk, hki, ha, hcloses⟩ :=
    hends.exists_closes i l hi hl (Line.isNestedDeeper_of_isDefinition hd)
  obtain ⟨had, halevel⟩ := Line.closes_eq_true_iff.mp hcloses
  rcases Nat.eq_or_lt_of_le hki with rfl | hlt
  · obtain rfl : l = a := Option.some.inj (hl.symm.trans ha)
    exact hle.trans halevel
  · exact (hout k a hk hlt ha had).trans halevel

theorem BlockEnds.directLine_of_without (hends : BlockEnds ls n own stop) (hn : n ≤ start)
    (hstop : start + count = stop) (hl : DirectWithout ls (Within start count) h i l)
    (hi : ¬ Within start count i) : DirectLine ls h i l := by
  refine ⟨hl.line_eq, hl.isDefinition, hl.next_le, hl.deeper, fun j m hj hji hm hd => ?_⟩
  by_cases hgone : Within start count j
  · rw [Within] at hi hgone
    have hlevel : l.level ≤ own.level := by
      refine hends.level_le (i := i) (by omega) hl.line_eq hl.isDefinition (Nat.le_refl _) ?_
      intro k a hk hki
      exact hl.outermost k a (by omega) hki (by rw [Within]; omega)
    exact hlevel.trans (hends.le_level (by omega) (by omega) hm hd)
  · exact hl.outermost j m hj hji hgone hm hd

theorem BlockEnds.commonLine_of_without (hends : BlockEnds ls n own stop) (hn : n ≤ start)
    (hstop : start + count = stop) (hm : ls[m]? = some inner) (hd : inner.isDefinition = true)
    (hout : ¬ Within start count m) (hl : CommonWithout ls (Within start count) m i l) :
    CommonLine ls m i l := by
  refine ⟨hl.line_eq, hl.isDefinition, hl.lt, hl.shallower, fun j a hij hjm ha had => ?_⟩
  by_cases hgone : Within start count j
  · rw [Within] at hout hgone
    have hlevel : l.level ≤ own.level := by
      refine hends.level_le (i := m) (by omega) hm hd (hl.shallower inner hm).le ?_
      intro k b hk hkm
      exact hl.outermost k b (by omega) hkm (by rw [Within]; omega)
    exact hlevel.trans (hends.le_level (by omega) (by omega) ha had)
  · exact hl.outermost j a hij hjm hgone ha had

/-- What is deleted of a block is direct for no subject that stays, but the line of the subject may
be. -/
theorem BlockEnds.eq_of_directLine (hends : BlockEnds ls n own stop) (hn : n ≤ start)
    (hn' : start ≤ n + 1) (hstop : start + count = stop) (hne : h ≠ .line n)
    (hout : ∀ m, h = .line m → ¬ Within start count m) (hl : DirectLine ls h i l)
    (hi : Within start count i) : i = n := by
  rw [Within] at hi
  by_contra hin
  have hnext : h.next ≤ n := by
    cases h with
    | root => exact Nat.zero_le n
    | line m =>
      have hmn : m ≠ n := fun heq => hne (congrArg Handle.line heq)
      have hm := hout m rfl
      have hmi : m < i := hl.next_le
      rw [Within] at hm
      exact Nat.succ_le_of_lt (by omega)
  have hdeeper := hends.lt_level (by omega) (by omega) hl.line_eq hl.isDefinition
  have hlevel := hl.outermost n own hnext (by omega) hends.own_eq hends.isDefinition
  exact absurd hlevel hdeeper.not_ge

theorem BlockEnds.eq_of_commonLine (hends : BlockEnds ls n own stop) (hn : n ≤ start)
    (hstop : start + count = stop) (hm : ls[m]? = some inner) (hd : inner.isDefinition = true)
    (hout : ¬ Within start count m) (hl : CommonLine ls m i l) (hi : Within start count i) :
    i = n := by
  rw [Within] at hi hout
  have hlt := hl.lt
  by_contra hin
  have hdeeper := hends.lt_level (by omega) (by omega) hl.line_eq hl.isDefinition
  have hlevel : l.level ≤ own.level := by
    refine hends.level_le (i := m) (by omega) hm hd (hl.shallower inner hm).le ?_
    intro k b hk hkm
    exact hl.outermost k b (by omega) hkm
  exact absurd hlevel hdeeper.not_ge

theorem BlockEnds.deleted (hends : BlockEnds ls n own stop) (hstop : n + 1 + count = stop)
    (hdel : DeletedAt ls ls' (n + 1) count) (hlen : n + 1 ≤ ls'.length) :
    BlockEnds ls' n own (n + 1) := by
  have hbefore : originFrom (n + 1) count n = n := if_neg (Nat.not_succ_le_self n)
  have hafter : ∀ {j}, n + 1 ≤ j → originFrom (n + 1) count j = j + count := fun h => if_pos h
  refine ⟨?_, hends.isDefinition, Nat.lt_succ_self n, hlen, fun k a hnk hk => ?_, ?_⟩
  · rw [hdel n, hbefore, hends.own_eq]
  · exact absurd hk (Nat.not_lt_of_le hnk)
  · intro j m hj hm hnested
    rw [hdel j, hafter hj] at hm
    obtain ⟨k, a, hk, hkj, ha, hcloses⟩ := hends.exists_closes _ m (by omega) hm hnested
    have hk' : originFrom (n + 1) count (k - count) = k := by
      rw [hafter (by omega)]
      omega
    refine ⟨k - count, a, by omega, by omega, ?_, hcloses⟩
    rw [hdel, hk', ha]

theorem BlockEnds.succ (hends : BlockEnds ls n own stop) (hl : ls[stop]? = some l)
    (hd : l.isDefinition = false) : BlockEnds ls n own (stop + 1) := by
  have hopen : l.closes own.level = false := by rw [Line.closes, hd, Bool.false_and]
  refine ⟨hends.own_eq, hends.isDefinition, Nat.lt_succ_of_lt hends.lt,
    (List.getElem?_eq_some_iff.mp hl).1, fun k a hnk hk ha => ?_, fun j m hj hm hnested => ?_⟩
  · rcases Nat.eq_or_lt_of_le (Nat.le_of_lt_succ hk) with rfl | hlt
    · obtain rfl : l = a := Option.some.inj (hl.symm.trans ha)
      exact hopen
    · exact hends.not_closes k a hnk hlt ha
  · obtain ⟨k, a, hk, hkj, ha, hcloses⟩ :=
      hends.exists_closes j m (Nat.le_of_succ_le hj) hm hnested
    refine ⟨k, a, Nat.lt_of_le_of_ne hk ?_, hkj, ha, hcloses⟩
    rintro rfl
    obtain rfl : l = a := Option.some.inj (hl.symm.trans ha)
    simp [hopen] at hcloses

end Blocks

namespace Document

variable {d d' : Document} {n stop start count : Nat} {own : Line} {s : SubjectId} {h : Handle}

theorem withBlankLine_cases (d : Document) (stop : Nat) :
    (∃ l, d.lines[stop]? = some l ∧ l.isBlank = true ∧ d.withBlankLine stop = stop + 1) ∨
      d.withBlankLine stop = stop := by
  rw [withBlankLine]
  split
  · next hblank =>
    obtain ⟨l, hl, hblank⟩ := (Option.any_eq_true _ _).mp hblank
    exact .inl ⟨l, hl, hblank, rfl⟩
  · exact .inr rfl

theorem blockEnds_of_block {block : List Line} (hown : d.lines[n]? = some own)
    (hd : own.isDefinition = true) (hblock : d.block (.line n) = .ok (n + 1, block)) :
    BlockEnds d.lines n own (n + 1 + block.length) := by
  have hhas : ∀ i, d.BlockHas (.line n) i ↔ n < i ∧ i < n + 1 + block.length := by
    intro i
    simp only [BlockHas, hblock, Except.ok.injEq, exists_eq_left', Nat.succ_le_iff]
  have hlen : n + 1 + block.length ≤ d.lines.length := by
    have hn := (List.getElem?_eq_some_iff.mp hown).1
    have hle := (prefix_blockBelow own.level (d.lines.drop (n + 1))).length_le
    rw [block_eq hown] at hblock
    obtain ⟨-, rfl⟩ := Prod.mk.inj (Except.ok.inj hblock)
    rw [List.length_drop] at hle
    omega
  have hopen : ∀ k a, n < k → k < n + 1 + block.length → d.lines[k]? = some a →
      a.closes own.level = false := by
    intro k a hnk hk ha
    obtain ⟨-, j, l, hkj, -, -, hopen⟩ := (blockHas_iff hown).mp ((hhas k).mpr ⟨hnk, hk⟩)
    exact hopen k a hnk hkj ha
  refine ⟨hown, hd, by omega, hlen, hopen, fun j m hj hm hnested => ?_⟩
  by_contra hnone
  have hbelongs : d.BlockHas (.line n) j := by
    refine (blockHas_iff hown).mpr ⟨by omega, j, m, Nat.le_refl j, hm, hnested, ?_⟩
    intro k a hnk hkj ha
    refine Bool.eq_false_iff.mpr fun hcloses => hnone ⟨k, a, ?_, hkj, ha, hcloses⟩
    exact Nat.not_lt.mp fun hk => absurd (hopen k a hnk hk ha) (by simp [hcloses])
  exact absurd ((hhas j).mp hbelongs).2 (Nat.not_lt_of_le hj)

theorem blockEnds_withBlankLine (hends : BlockEnds d.lines n own stop)
    (hblank : ∀ l ∈ d.lines, l.isDefinition = true → l.isBlank = false) :
    BlockEnds d.lines n own (d.withBlankLine stop) := by
  rcases d.withBlankLine_cases stop with ⟨l, hl, hlblank, heq⟩ | heq
  · rw [heq]
    refine hends.succ hl (Bool.eq_false_iff.mpr fun hd => ?_)
    simp [hblank l (List.mem_of_getElem? hl) hd] at hlblank
  · rw [heq]
    exact hends

theorem block_eq_nil_of_blockEnds (hends : BlockEnds d.lines n own (n + 1)) :
    d.block (.line n) = .ok (n + 1, []) := by
  rw [block_eq hends.own_eq, Except.ok.injEq, Prod.mk.injEq]
  refine ⟨rfl, List.length_eq_zero_iff.mp (Nat.eq_zero_of_not_pos fun hpos => ?_)⟩
  have hhas : d.BlockHas (.line n) (n + 1) :=
    ⟨_, block_eq hends.own_eq, Nat.le_refl _, Nat.lt_add_of_pos_right hpos⟩
  obtain ⟨-, j, l, hj, hl, hnested, hopen⟩ := (blockHas_iff hends.own_eq).mp hhas
  obtain ⟨k, a, hk, hkj, ha, hcloses⟩ := hends.exists_closes j l hj hl hnested
  exact absurd (hopen k a hk hkj ha) (by simp [hcloses])

/-- Whether a subject sees in a document what it sees in another one: the parameters on its line,
and the properties with the names that count. -/
structure SeesSame (d d' : Document) (s : SubjectId) (counts : Text → Prop) : Prop where
  ownParameters?_eq : d'.ownParameters? s = d.ownParameters? s
  direct?_eq : ∀ name, counts name → d'.direct? s name = d.direct? s name
  common?_eq : ∀ name, counts name → d'.common? s name = d.common? s name

theorem SeesSame.trans {d₁ : Document} {counts : Text → Prop} (hsame : d.SeesSame d₁ s counts)
    (hsame' : d₁.SeesSame d' s counts) : d.SeesSame d' s counts :=
  ⟨hsame'.ownParameters?_eq.trans hsame.ownParameters?_eq,
    fun name hname => (hsame'.direct?_eq name hname).trans (hsame.direct?_eq name hname),
    fun name hname => (hsame'.common?_eq name hname).trans (hsame.common?_eq name hname)⟩

theorem SeesSame.mono {counts counts' : Text → Prop} (hsame : d.SeesSame d' s counts)
    (himp : ∀ name, counts' name → counts name) : d.SeesSame d' s counts' :=
  ⟨hsame.ownParameters?_eq, fun name hname => hsame.direct?_eq name (himp name hname),
    fun name hname => hsame.common?_eq name (himp name hname)⟩

theorem seesSame_withoutLines (hends : BlockEnds d.lines n own (start + count)) (hn : n ≤ start)
    (hn' : start ≤ n + 1) (hcoherent : d.registry.Coherent d.lines)
    (hs : d.registry.handle? s = some h) (hne : h ≠ .line n)
    (hout : ∀ m, h = .line m → ¬ Within start count m) :
    d.SeesSame (d.withoutLines start (start + count)) s
      fun name => n = start → name ≠ own.definition := by
  have hdel := deletedAt_withoutLines hends.le_length
  have hdefined := defined_of_coherent hcoherent hs
  obtain ⟨g, rfl⟩ := Handle.exists_origin hout
  have hs' := Registry.handle?_deleteLines hcoherent.nodup hs
  have hname : ∀ {i l name}, i = n → Within start count i → d.lines[i]? = some l →
      (n = start → name ≠ own.definition) → l.definition ≠ name := by
    rintro i l name rfl hin hl hcounts rfl
    obtain rfl : own = l := Option.some.inj (hends.own_eq.symm.trans hl)
    exact hcounts (Nat.le_antisymm hn hin.1) rfl
  refine ⟨ownParameters?_of_deleted hs hs' hdel, fun name hcounts => ?_, fun name hcounts => ?_⟩
  · obtain ⟨found, hfound, -⟩ := exists_findDirect? (inside_of_origin hdel hdefined.inside) name
    apply direct?_of_deleted hs hs' hfound
    apply findDirect?_of_deleted hdel hdefined.inside hfound
    · intro l j _ hl
      exact hends.directLine_of_without hn rfl hl not_within_originFrom
    · intro i l hi hl
      exact hname (hends.eq_of_directLine hn hn' rfl hne hout hl hi) hi hl.line_eq hcounts
  · apply common?_of_deleted hs hs' _ (inside_of_origin hdel hdefined.inside)
    rintro m found rfl hfound
    obtain ⟨inner, hinner, hd⟩ := hdefined _ rfl
    apply findCommon?_of_deleted hdel (hdefined.inside _ rfl) hfound
    · intro l j _ hl
      exact hends.commonLine_of_without hn rfl hinner hd not_within_originFrom hl
    · intro i l hi hl
      have hin := hends.eq_of_commonLine hn rfl hinner hd not_within_originFrom hl hi
      exact hname hin hi hl.line_eq hcounts

section Clearing

variable (hends : BlockEnds d.lines n own (n + 1 + count))
  (hcoherent : d.registry.Coherent d.lines) (hs : d.registry.handle? s = some (.line n))

include hends

theorem blockEnds_withoutLines :
    BlockEnds (d.withoutLines (n + 1) (n + 1 + count)).lines n own (n + 1) := by
  apply hends.deleted rfl (deletedAt_withoutLines hends.le_length)
  have hn := (List.getElem?_eq_some_iff.mp hends.own_eq).1
  rw [withoutLines, List.length_append, List.length_take, Nat.min_eq_left hn]
  exact Nat.le_add_right _ _

theorem lines_withoutLines_withoutLines :
    ((d.withoutLines (n + 1) (n + 1 + count)).withoutLines n (n + 1)).lines =
      d.lines.take n ++ d.lines.drop (n + 1 + count) := by
  have hn := (List.getElem?_eq_some_iff.mp hends.own_eq).1
  have hlen : (d.lines.take (n + 1)).length = n + 1 := by
    rw [List.length_take, Nat.min_eq_left hn]
  have htake : n ≤ (d.lines.take (n + 1)).length := (Nat.le_succ n).trans_eq hlen.symm
  simp only [withoutLines, List.take_append_of_le_length htake, List.take_take,
    Nat.min_eq_left (Nat.le_succ n), List.drop_left' hlen]

include hs

theorem deleteBlock_eq_withoutLines {block : List Line}
    (hblock : d.block (.line n) = .ok (n + 1, block))
    (hstop : d.withBlankLine (n + 1 + block.length) = n + 1 + count) :
    d.deleteBlock s =
      .ok (d.withoutLines (n + 1) (n + 1 + count), decide (n + 1 < n + 1 + count)) := by
  simp only [deleteBlock, hs, hblock, Checked.ok_bind, hstop]
  split
  · next heq =>
    rw [← heq, withoutLines_self, decide_eq_false (Nat.lt_irrefl _)]
    rfl
  · next hne =>
    have hlt := Nat.lt_of_le_of_ne (Nat.le_add_right _ _) hne
    rw [deleteLines_eq hlt.le hends.le_length, decide_eq_true hlt]
    rfl

theorem deleteSubject_eq_withoutLines {block : List Line}
    (hblock : d.block (.line n) = .ok (n + 1, block))
    (hstop : d.withBlankLine (n + 1 + block.length) = n + 1 + count) :
    d.deleteSubject s =
      .ok ((d.withoutLines (n + 1) (n + 1 + count)).withoutLines n (n + 1), true) := by
  have hline : d.registry.line? s = some n := by
    rw [Registry.line?, hs]
    rfl
  have hends' := blockEnds_withoutLines hends
  rw [deleteSubject, hline]
  dsimp only
  rw [deleteBlock_eq_withoutLines hends hs hblock hstop, Checked.ok_bind]
  dsimp only
  rw [deleteLines_eq (Nat.le_succ n) hends'.le_length]
  rfl

include hcoherent

theorem seesSame_of_cleared {t : SubjectId} (hst : t ≠ s) (ht : d.registry.handle? t = some h)
    (hout : ∀ m, h = .line m → ¬ Within (n + 1) count m) :
    d.SeesSame (d.withoutLines (n + 1) (n + 1 + count)) t (fun _ => True) ∧
      d.SeesSame ((d.withoutLines (n + 1) (n + 1 + count)).withoutLines n (n + 1)) t
        (· ≠ own.definition) := by
  have hcoherent' : (d.withoutLines (n + 1) (n + 1 + count)).registry.Coherent
      (d.withoutLines (n + 1) (n + 1 + count)).lines :=
    hcoherent.delete (Nat.le_add_right _ _) hends.le_length
  have hne : h ≠ .line n := by
    rintro rfl
    exact hst (hcoherent.eq_of_handle? ht hs)
  have hsame := seesSame_withoutLines hends (Nat.le_succ n) (Nat.le_refl _) hcoherent ht hne hout
  obtain ⟨g, rfl⟩ := Handle.exists_origin hout
  have hne' : g ≠ .line n := by
    rintro rfl
    exact hne (congrArg Handle.line (if_neg (Nat.not_succ_le_self n)))
  have hout' : ∀ m, g = .line m → ¬ Within n 1 m := by
    rintro m rfl hin
    exact hne' (congrArg Handle.line (Nat.le_antisymm (Nat.le_of_lt_succ hin.2) hin.1))
  have ht' := Registry.handle?_deleteLines hcoherent.nodup ht
  have hsame' := seesSame_withoutLines (blockEnds_withoutLines hends) (Nat.le_refl n)
    (Nat.le_succ n) hcoherent' ht' hne' hout'
  have hapart : n ≠ n + 1 := (Nat.succ_ne_self n).symm
  refine ⟨hsame.mono fun _ _ heq => absurd heq hapart, ?_⟩
  exact (hsame.mono fun _ _ heq => absurd heq hapart).trans (hsame'.mono fun _ hname _ => hname)

end Clearing

/-- After any edits that succeed, as long as no definition is blank: the deletion of the block of a
subject on a line takes the lines of the block and a blank line right after them, the deletion of
the subject takes its line as well, and the other lines stay. After the first the block is empty.
Every other subject whose line stays sees what it has seen, but for the properties with the
definition of the line that is deleted. -/
theorem performAll_clears (source : Text) (options : Options) {es : List Edit}
    (hd : (parse source options).performAll es = .ok d)
    (hblank : ∀ l ∈ d.lines, l.isDefinition = true → l.isBlank = false)
    (hs : d.registry.handle? s = some (.line n)) :
    ∃ own block stop cleared removed,
      d.lines[n]? = some own ∧ d.block (.line n) = .ok (n + 1, block) ∧
      (stop = if d.lines[n + 1 + block.length]?.any Line.isBlank then n + 1 + block.length + 1
        else n + 1 + block.length) ∧
      d.deleteBlock s = .ok (cleared, decide (n + 1 < stop)) ∧
      cleared.lines = d.lines.take (n + 1) ++ d.lines.drop stop ∧
      cleared.registry.handle? s = some (.line n) ∧ cleared.block (.line n) = .ok (n + 1, []) ∧
      d.deleteSubject s = .ok (removed, true) ∧
      removed.lines = d.lines.take n ++ d.lines.drop stop ∧
      ∀ t h, t ≠ s → d.registry.handle? t = some h → (∀ m, h = .line m → m < n + 1 ∨ stop ≤ m) →
        d.SeesSame cleared t (fun _ => True) ∧ d.SeesSame removed t (· ≠ own.definition) := by
  have hcoherent := coherent_of_performAll (Registry.coherent_ofLines (readSource source)) hd
  obtain ⟨own, hown, hdefinition⟩ := defined_of_coherent hcoherent hs n rfl
  have hblock := block_eq hown
  have hends := blockEnds_withBlankLine (blockEnds_of_block hown hdefinition hblock) hblank
  obtain ⟨count, hstop⟩ := Nat.exists_eq_add_of_le (Nat.succ_le_of_lt hends.lt)
  rw [hstop] at hends
  have hself : (Handle.line n).origin (n + 1) count = .line n :=
    congrArg Handle.line (if_neg (Nat.not_succ_le_self n))
  refine ⟨own, _, n + 1 + count, _, _, hown, hblock, hstop.symm,
    deleteBlock_eq_withoutLines hends hs hblock hstop, rfl,
    Registry.handle?_deleteLines hcoherent.nodup (hself.symm ▸ hs),
    block_eq_nil_of_blockEnds (blockEnds_withoutLines hends),
    deleteSubject_eq_withoutLines hends hs hblock hstop, lines_withoutLines_withoutLines hends, ?_⟩
  intro t h hst ht hout
  apply seesSame_of_cleared hends hcoherent hs hst ht
  intro m hm hin
  rw [Within] at hin
  have hstays := hout m hm
  omega

/-- An input goes with its sprite and the blank line after it; the sprite of the next input, which
is nested less deep, sees what it has seen. -/
theorem performAll_clears_before_blank :
    let source := "scale 2\n  input a\n    sprite b\n      trim none\n\n input c\n  sprite d"
    let es := [Edit.writeProperty 1 "id".toList ["e".toList]]
    ∃ d cleared removed, (parse source.toList).performAll es = .ok d ∧
      (∀ l ∈ d.lines, l.isDefinition = true → l.isBlank = false) ∧
      d.registry.handle? 1 = some (.line 1) ∧
      d.deleteBlock 1 = .ok (cleared, true) ∧ d.SeesSame cleared 4 (fun _ => True) ∧
      d.deleteSubject 1 = .ok (removed, true) ∧ d.SeesSame removed 4 (· ≠ "input".toList) := by
  intro source es
  have hhandle : (fun d => (d.registry.handle? 1, d.registry.handle? 4)) <$>
      (parse source.toList).performAll es = .ok (some (.line 1), some (.line 7)) := by decide
  obtain ⟨d, hd, h⟩ := Checked.map_eq_ok.mp hhandle
  obtain ⟨hinput, hsprite⟩ := Prod.mk.inj h
  have hlines : ((parse source.toList).performAll es >>= fun d => (fun b =>
      ((d.lines.all fun l => !l.isDefinition || !l.isBlank) &&
        d.lines[1]?.any (·.definition = "input".toList),
      d.withBlankLine (b.1 + b.2.length))) <$> d.block (.line 1)) = .ok (true, 6) := by decide
  rw [hd, Checked.ok_bind] at hlines
  obtain ⟨b, hb, h⟩ := Checked.map_eq_ok.mp hlines
  obtain ⟨hall, hend⟩ := Prod.mk.inj h
  obtain ⟨hall, hname⟩ := Bool.and_eq_true_iff.mp hall
  have hblank : ∀ l ∈ d.lines, l.isDefinition = true → l.isBlank = false := by
    simpa [imp_iff_not_or] using hall
  obtain ⟨own, block, stop, cleared, removed, hown, hblock, hstop, hclear, -, -, -, hremove, -,
    hsame⟩ := performAll_clears source.toList {} hd hblank hinput
  have hstop : stop = 6 := by
    obtain rfl := Except.ok.inj (hb.symm.trans hblock)
    exact hstop.trans hend
  have hname : own.definition = "input".toList := by simpa [hown] using hname
  obtain ⟨hcleared, hremoved⟩ := hsame 4 _ (by decide) hsprite (by
    rintro m ⟨⟩
    exact .inr (by omega))
  rw [hstop] at hclear
  exact ⟨d, cleared, removed, hd, hblank, hinput, hclear, hcleared, hremove, hname ▸ hremoved⟩

end Document
end SpriteConfig
