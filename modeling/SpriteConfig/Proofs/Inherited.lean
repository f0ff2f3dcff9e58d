import Mathlib.Order.Bounds.Defs
import SpriteConfig.Proofs.Success
import SpriteConfig.Proofs.Visible
/-!
# What a subject inherits

A common lookup walks back from the line of a subject and lowers its level as it goes. What it finds
can be said without a walk: of the definitions with the name that are common to the line, the last.
This holds after any edits, for every subject that stands on a line.
-/
namespace SpriteConfig

/-- The numbers of the definitions with a name that are common to line `n`. -/
def commonNumbers (ls : List Line) (n : Nat) (name : Text) : Set Nat :=
  {i | ∃ l, CommonLine ls n i l ∧ l.definition = name}

variable {ls : List Line} {xs : List (Line × Nat)} {name : Text} {n : Nat}

theorem findDefinition?_eq_some_iff_isGreatest (h : Enumerates (· > ·) (CommonLine ls n) xs)
    {l : Line} {i : Nat} :
    findDefinition? name xs = some (l, i) ↔
      ls[i]? = some l ∧ IsGreatest (commonNumbers ls n name) i := by
  rw [h.findDefinition?_eq_some_iff fun i j => Nat.lt_asymm]
  constructor
  · rintro ⟨hl, hname, hlast⟩
    refine ⟨hl.line_eq, ⟨l, hl, hname⟩, ?_⟩
    rintro j ⟨m, hm, hmname⟩
    by_contra hlt
    exact hlast j m (Nat.lt_of_not_le hlt) hm hmname
  · rintro ⟨hli, ⟨m, hm, hname⟩, hlast⟩
    obtain rfl : l = m := Option.some.inj (hli.symm.trans hm.line_eq)
    refine ⟨hm, hname, fun j m hlt hj hmname => ?_⟩
    have hle : j ≤ i := hlast ⟨m, hj, hmname⟩
    exact absurd hle (Nat.not_le.mpr hlt)

theorem findDefinition?_eq_none_iff_empty (h : Enumerates (· > ·) (CommonLine ls n) xs) :
    findDefinition? name xs = none ↔ commonNumbers ls n name = ∅ := by
  rw [h.findDefinition?_eq_none_iff, Set.eq_empty_iff_forall_notMem]
  constructor
  · rintro hnone i ⟨l, hl, hname⟩
    exact hnone i l hl hname
  · intro hempty i l hl hname
    exact hempty i ⟨l, hl, hname⟩

namespace Document

variable {d : Document}

/-- After any edits that succeed, the common lookup of a subject finds the last line before it that
is a definition with the name, is nested less deep than the subject, and has no definition nested
less deep than itself between it and the subject. It finds none only if there is none. -/
theorem performAll_inherits_nearest (source : Text) (options : Options) {es : List Edit}
    (hd : (parse source options).performAll es = .ok d) {s : SubjectId}
    (hs : d.registry.handle? s = some (.line n)) (name : Text) :
    ∃ found, d.commonLine? s name = .ok found ∧
      (∀ l i, found = some (l, i) ↔
        d.lines[i]? = some l ∧ IsGreatest (commonNumbers d.lines n name) i) ∧
      (found = none ↔ commonNumbers d.lines n name = ∅) := by
  have hcoherent := coherent_of_performAll (Registry.coherent_ofLines (readSource source)) hd
  have hn : n < d.lines.length := (defined_of_coherent hcoherent hs).inside n rfl
  obtain ⟨xs, hxs, henum⟩ := exists_enumerates_common hn
  refine ⟨findDefinition? name xs, ?_, fun l i => ?_, ?_⟩
  · rw [commonLine?, hs]
    exact findCommon?_of_commonAt hxs name
  · exact findDefinition?_eq_some_iff_isGreatest henum
  · exact findDefinition?_eq_none_iff_empty henum

/-- The walk passes a line of the same name that is nested deeper than a later one, and goes on to
the line beside that one. -/
theorem performAll_inherits_nearest_beside :
    let source := "sheet\n  padding 1\n    padding 4\n  scale 2\n      input a".toList
    let l := Line.parse 0 "  padding 1".toList
    ∃ d, (parse source).performAll [.writeProperty 0 "trim".toList ["none".toList]] = .ok d ∧
      d.registry.handle? 1 = some (.line 5) ∧ d.commonLine? 1 "padding".toList = .ok (some (l, 2)) ∧
      IsGreatest (commonNumbers d.lines 5 "padding".toList) 2 ∧
      d.commonLine? 1 "grid".toList = .ok none ∧ commonNumbers d.lines 5 "grid".toList = ∅ := by
  intro source l
  have hrun : (fun d => (d.registry.handle? 1, d.commonLine? 1 "padding".toList,
      d.commonLine? 1 "grid".toList)) <$>
        (parse source).performAll [.writeProperty 0 "trim".toList ["none".toList]] =
      .ok (some (.line 5), .ok (some (l, 2)), .ok none) := rfl
  obtain ⟨d, hd, h⟩ := Checked.map_eq_ok.mp hrun
  simp only [Prod.mk.injEq] at h
  obtain ⟨hs, hpadding, hgrid⟩ := h
  obtain ⟨found, hfound, hgreatest, -⟩ :=
    performAll_inherits_nearest source {} hd hs "padding".toList
  obtain ⟨missing, hmissing, -, hempty⟩ := performAll_inherits_nearest source {} hd hs "grid".toList
  obtain rfl := Except.ok.inj (hfound.symm.trans hpadding)
  obtain rfl := Except.ok.inj (hmissing.symm.trans hgrid)
  exact ⟨d, hd, hs, hpadding, ((hgreatest l 2).mp rfl).2, hgrid, hempty.mp rfl⟩

end Document
end SpriteConfig
