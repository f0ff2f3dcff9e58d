import SpriteConfig.Proofs.Deleted
import SpriteConfig.Proofs.Laminar
/-!
# What the removal of a property uncovers

A property is a line. What is nested deeper than it, right below it, is hidden from the subject by
the property alone, and comes to light when the property is removed. Nothing else changes for a
direct lookup of another name.
-/
namespace SpriteConfig

theorem within_one_eq (q : Nat) : Within q 1 = (· = q) := by
  funext i
  rw [Within, eq_iff_iff]
  omega

theorem Registry.not_within_of_handle?_deleteLines {r : Registry} {start count : Nat}
    (hr : (r.subjects.map Subject.id).Nodup) {s : SubjectId} {h g : Handle}
    (hs : r.handle? s = some h) (hs' : (r.deleteLines start (start + count)).handle? s = some g) :
    ∀ n, h = .line n → ¬ Within start count n := by
  obtain ⟨moved, hmoved, rfl, -⟩ := exists_of_handle? hs'
  obtain ⟨subject, hmem, hkept, rfl⟩ := mem_deleteLines.mp hmoved
  obtain rfl : subject.handle = h := Option.some.inj ((handle?_of_mem hr hmem).symm.trans hs)
  intro n hn hin
  rcases lt_or_le_of_not_mem_gone hmem hkept hn with hlt | hle
  · exact Nat.not_lt_of_le hin.1 hlt
  · exact Nat.not_lt_of_le hle hin.2

namespace Document

variable {d d' : Document} {g h : Handle} {q i : Nat} {l property : Line} {name : Text}
  {s t : SubjectId} {found : Option (Line × Nat)}

/-- Whether line `q` alone keeps line `i`, which is in its block, from being direct for a handle. -/
structure Uncovers (d : Document) (q : Nat) (h : Handle) (i : Nat) (l : Line) : Prop where
  without : DirectWithout d.lines (· = q) h i l
  next_le : h.next ≤ q
  inBlock : d.BlockHas (.line q) i

/-- A line that is direct when line `q` is gone has been direct, or is uncovered. -/
theorem directLine_or_uncovers (hq : d.lines[q]? = some property)
    (hl : DirectWithout d.lines (· = q) h i l) :
    DirectLine d.lines h i l ∨ d.Uncovers q h i l := by
  by_cases hcovers : h.next ≤ q ∧ q < i ∧ property.level < l.level
  · obtain ⟨hnext, hqi, hlevel⟩ := hcovers
    have hin : InBlock d.lines (.line q) i := by
      refine ⟨Nat.succ_le_of_lt hqi, ?_⟩
      rintro _ own ⟨⟩ hown j a hqj hji ha
      obtain rfl : property = own := Option.some.inj (hq.symm.trans hown)
      have hdeeper : a.isDefinition = true → l.level ≤ a.level := by
        intro hd
        rcases Nat.eq_or_lt_of_le hji with rfl | hlt
        · exact (congrArg Line.level (Option.some.inj (hl.line_eq.symm.trans ha))).le
        · exact hl.outermost j a (by omega) hlt (Nat.ne_of_gt hqj) ha hd
      rw [Line.closes, Bool.and_eq_false_imp]
      intro hd
      exact decide_eq_false (Nat.not_le_of_lt (hlevel.trans_le (hdeeper hd)))
    have hinside : (Handle.line q).Inside d :=
      Handle.inside_line (List.getElem?_eq_some_iff.mp hq).1
    exact .inr ⟨hl, hnext, blockHas_of_inBlock hinside hl.line_eq hl.isDefinition hin⟩
  · refine .inl ⟨hl.line_eq, hl.isDefinition, hl.next_le, hl.deeper, fun j m hj hji hm hd => ?_⟩
    by_cases hjq : j = q
    · subst hjq
      obtain rfl : property = m := Option.some.inj (hq.symm.trans hm)
      exact Nat.le_of_not_lt fun hlevel => hcovers ⟨hj, hji, hlevel⟩
    · exact hl.outermost j m hj hji hjq hm hd

/-- After the removal of a line, a lookup of another name finds what it has found, or a line that
the removed one has hidden. -/
theorem findDirect?_of_removed (hq : d.lines[q]? = some property)
    (hname : property.definition ≠ name) (hg : (g.origin q 1).Inside d)
    (hfound : (d.withoutLines q (q + 1)).findDirect? g name = .ok found) :
    d.findDirect? (g.origin q 1) name = .ok (found.map fun x => (x.1, originFrom q 1 x.2)) ∨
      ∃ l j, found = some (l, j) ∧ d.Uncovers q (g.origin q 1) (j + 1) l := by
  have hlen := (List.getElem?_eq_some_iff.mp hq).1
  by_cases huncovers : ∃ l j, found = some (l, j) ∧ d.Uncovers q (g.origin q 1) (j + 1) l
  · exact .inr huncovers
  · left
    apply findDirect?_of_deleted (deletedAt_withoutLines hlen) hg hfound
    · intro l j hlj hl
      rw [within_one_eq] at hl
      refine (directLine_or_uncovers hq hl).resolve_right fun hhidden => huncovers ?_
      have hqj : q < originFrom q 1 j := ((blockHas_iff hq).mp hhidden.inBlock).1
      have hnumber : originFrom q 1 j = j + 1 := by
        refine if_pos (Nat.not_lt.mp fun hjq => ?_)
        rw [originFrom, if_neg (Nat.not_le_of_lt hjq)] at hqj
        exact Nat.lt_asymm hqj hjq
      exact ⟨l, j, hlj, hnumber ▸ hhidden⟩
    · intro i l hi hl
      rw [within_one_eq] at hi
      subst hi
      obtain rfl : property = l := Option.some.inj (hq.symm.trans hl.line_eq)
      exact hname

theorem deleteProperty_eq_withoutLines (hs : d.registry.handle? s = some h)
    (hfound : d.findDirect? h name = .ok (some (l, q))) (hq : q < d.lines.length) :
    d.deleteProperty s name = .ok (d.withoutLines q (q + 1), true) := by
  rw [deleteProperty, directLine?, hs]
  dsimp only
  rw [hfound, Checked.ok_bind]
  dsimp only
  rw [deleteLines_eq (Nat.le_succ q) hq]
  rfl

theorem exists_of_hasDirect (hhas : d.hasDirect s name = .ok true) :
    ∃ h l q, d.registry.handle? s = some h ∧ d.findDirect? h name = .ok (some (l, q)) := by
  rw [hasDirect, directLine?] at hhas
  cases hs : d.registry.handle? s with
  | none =>
    rw [hs] at hhas
    cases hhas
  | some h =>
    rw [hs] at hhas
    obtain ⟨found, hfound, hsome⟩ := Checked.bind_eq_ok.mp hhas
    obtain ⟨⟨l, q⟩, rfl⟩ := Option.isSome_iff_exists.mp (Except.ok.inj hsome)
    exact ⟨h, l, q, rfl, hfound⟩

theorem exists_direct?_parse (source : Text) (options : Options) (s : SubjectId) (name : Text) :
    ∃ values, (parse source options).direct? s name = .ok values :=
  (valid_parse source Options.indents_default).exists_direct? s name

/-- When a property of a document that was just read is removed, its line goes and the others stay.
A subject that is still known has all other direct properties as before, except where its lookup
finds a line that the removed one has hidden. -/
theorem deleteProperty_uncovers {source : Text} {options : Options}
    (hd : parse source options = d) (hhas : d.hasDirect s name = .ok true) :
    ∃ d' h l q, d.registry.handle? s = some h ∧ d.findDirect? h name = .ok (some (l, q)) ∧
      d.deleteProperty s name = .ok (d', true) ∧
      d'.lines = d.lines.take q ++ d.lines.drop (q + 1) ∧
      ∀ t h h', d.registry.handle? t = some h → d'.registry.handle? t = some h' →
        ∀ other ≠ name, ∃ values, d.direct? t other = .ok values ∧
          (d'.direct? t other = .ok values ∨
            ∃ m i, d'.findDirect? h' other = .ok (some (m, i)) ∧ d.Uncovers q h (i + 1) m) := by
  have hvalues : ∀ t other, ∃ values, d.direct? t other = .ok values :=
    hd ▸ exists_direct?_parse source options
  have hcoherent : d.registry.Coherent d.lines :=
    hd ▸ Registry.coherent_ofLines (readSource source)
  obtain ⟨h, l, q, hs, hfound⟩ := exists_of_hasDirect hhas
  have hinside := (defined_of_coherent hcoherent hs).inside
  obtain ⟨hq, hdefinition, hname⟩ := getElem?_of_findDirect? hinside hfound
  have hlen := (List.getElem?_eq_some_iff.mp hq).1
  refine ⟨_, h, l, q, hs, hfound, deleteProperty_eq_withoutLines hs hfound hlen, rfl, ?_⟩
  intro t h h' ht ht' other hother
  obtain ⟨values, hdirect⟩ := hvalues t other
  refine ⟨values, hdirect, ?_⟩
  have hout := Registry.not_within_of_handle?_deleteLines hcoherent.nodup ht ht'
  obtain ⟨g, rfl⟩ := Handle.exists_origin hout
  obtain rfl : g = h' :=
    Option.some.inj ((Registry.handle?_deleteLines hcoherent.nodup ht).symm.trans ht')
  have hg := (defined_of_coherent hcoherent ht).inside
  obtain ⟨found, hfound', -⟩ :=
    exists_findDirect? (inside_of_origin (deletedAt_withoutLines hlen) hg) other
  have hremoved := findDirect?_of_removed hq (fun heq => hother (heq.symm.trans hname)) hg hfound'
  rcases hremoved with hsame | ⟨m, i, rfl, huncovers⟩
  · exact .inl ((direct?_of_deleted ht ht' hfound' hsame).trans hdirect)
  · exact .inr ⟨m, i, hfound', huncovers⟩

/-- The sprite keeps its own property when the one of its input with another name is removed,
although a line with that name is nested below the one that goes. -/
theorem deleteProperty_uncovers_beside_sprite :
    let source := "input a\n  padding 2\n    trim crop\n  sprite b\n    trim none".toList
    let d := parse source
    d.hasDirect 1 "padding".toList = .ok true ∧
      ∃ d', d.deleteProperty 1 "padding".toList = .ok (d', true) ∧
        ∃ values, d.direct? 2 "trim".toList = .ok values ∧
          d'.direct? 2 "trim".toList = .ok values := by
  intro source d
  have hhas : d.hasDirect 1 "padding".toList = .ok true := by decide
  obtain ⟨d', h, l, q, hs, hfound, hdelete, -, hother⟩ := deleteProperty_uncovers rfl hhas
  have hq : Option.map Prod.snd <$> d.findDirect? (.line 0) "padding".toList = .ok (some 1) := by
    decide
  have hhandle : d.registry.handle? 1 = some (.line 0) := by decide
  obtain rfl : h = .line 0 := Option.some.inj (hs.symm.trans hhandle)
  rw [hfound] at hq
  obtain rfl : q = 1 := Option.some.inj (Except.ok.inj hq)
  have hrun : (do
      let r ← d.deleteProperty 1 "padding".toList
      let found ← r.1.findDirect? (.line 2) "trim".toList
      return (r.1.registry.handle? 2, found.map Prod.snd)) = .ok (some (.line 2), some 3) := by
    decide
  rw [hdelete, Checked.ok_bind] at hrun
  obtain ⟨found, hfound', hrun⟩ := Checked.bind_eq_ok.mp hrun
  obtain ⟨hs', hnumber⟩ := Prod.mk.inj (Except.ok.inj hrun)
  obtain ⟨values, hvalues, hsame⟩ := hother 2 (.line 3) _ (by decide) hs' "trim".toList (by decide)
  refine ⟨hhas, d', hdelete, values, hvalues, hsame.resolve_right ?_⟩
  rintro ⟨m, i, hm, huncovers⟩
  obtain rfl := Except.ok.inj (hfound'.symm.trans hm)
  obtain rfl : i = 3 := Option.some.inj hnumber
  exact absurd huncovers.inBlock (by decide)

/-- Whether a subject gets a property when one with another name is removed. -/
def RemovalReveals (d : Document) (s : SubjectId) (name : Text) (t : SubjectId) (other : Text) :
    Prop :=
  d.hasDirect s name = .ok true ∧ other ≠ name ∧ d.direct? t other = .ok none ∧
    ∃ d' values, d.deleteProperty s name = .ok (d', true) ∧ (d'.registry.handle? t).isSome = true ∧
      d'.direct? t other = .ok (some values)

theorem removalReveals_of_run {other : Text} (values : List Text)
    (hhas : d.hasDirect s name = .ok true) (hother : other ≠ name)
    (hnone : d.direct? t other = .ok none)
    (hrun : (do
      let r ← d.deleteProperty s name
      let found ← r.1.direct? t other
      return (r.2, (r.1.registry.handle? t).isSome, found)) = .ok (true, true, some values)) :
    d.RemovalReveals s name t other := by
  obtain ⟨⟨d', answer⟩, hdelete, hrun⟩ := Checked.bind_eq_ok.mp hrun
  obtain ⟨found, hfound, hrun⟩ := Checked.bind_eq_ok.mp hrun
  simp only [pure, Except.pure, Except.ok.injEq, Prod.mk.injEq] at hrun
  obtain ⟨rfl, hstays, rfl⟩ := hrun
  exact ⟨hhas, hother, hnone, d', values, hdelete, hstays, hfound⟩

/-- What is nested below the property that is removed becomes a property of the input, or of the
sprite before. -/
theorem removalReveals_nested :
    (parse "input a\n  padding 2\n    scale 1".toList).RemovalReveals 1 "padding".toList 1
        "scale".toList ∧
      (parse "input a\n  sprite b\n  padding 2\n    scale 1".toList).RemovalReveals 1
        "padding".toList 2 "scale".toList := by
  constructor
  · exact removalReveals_of_run ["1".toList] (by decide) (by decide) (by decide)
      (by decide)
  · exact removalReveals_of_run ["1".toList] (by decide) (by decide) (by decide)
      (by decide)

end Document
end SpriteConfig
