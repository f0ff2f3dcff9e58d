import Mathlib.Data.List.InsertIdx
import Mathlib.Data.List.TakeWhile
import SpriteConfig.Proofs.Outline
import SpriteConfig.Proofs.Query
/-!
# Comments and blank lines

A comment or a blank line takes over the level of the line before it, so the lines after it are read
as they would be without it. It introduces no subject, no lookup sees it, and it is no heading. So a
text with one more of them says the same about every subject; only the numbers of the lines change.
-/
namespace SpriteConfig

namespace Text

/-- Whether a line is blank or a comment: nothing but spaces and tabs, or a `#` after them. -/
def IsRemark (t : Text) : Prop := t.IsIndentation ∨ (t.dropWhile isIndent).head? = some '#'

instance (t : Text) : Decidable t.IsRemark := inferInstanceAs (Decidable (_ ∨ _))

def insertLine (p : Nat) (line source : Text) : Text :=
  join ['\n'] ((split '\n' source).insertIdx p line)

theorem split_insertLine {line : Text} (hline : '\n' ∉ line) (p : Nat) (source : Text) :
    split '\n' (insertLine p line source) = (split '\n' source).insertIdx p line := by
  have hne : (split '\n' source).insertIdx p line ≠ [] := by
    cases p with
    | zero => exact List.cons_ne_nil _ _
    | succ p =>
      obtain ⟨first, rest, hsplit⟩ := List.exists_cons_of_ne_nil (split_ne_nil '\n' source)
      rw [hsplit]
      exact List.cons_ne_nil _ _
  apply LineBreak.split_join .lf hne
  intro l hl
  rcases List.eq_or_mem_of_mem_insertIdx hl with rfl | hl
  · exact LineBreak.free_lf.mpr hline
  · exact LineBreak.free_of_mem_split hl

end Text

section Remarks

variable {t : Text}

theorem Line.parse_of_isRemark (ht : t.IsRemark) (inherited : Nat) :
    parse inherited t = ⟨t, inherited, []⟩ := by
  rcases ht with hblank | hcomment
  · have hrest : t.dropWhile Text.isIndent = [] := List.dropWhile_eq_nil_iff.mpr hblank
    rw [parse, hrest]
  · obtain ⟨rest, hrest⟩ := List.head?_eq_some_iff.mp hcomment
    rw [parse, hrest]
    rfl

theorem Heading.ofText?_of_isRemark (ht : t.IsRemark) (n : Nat) : ofText? n t = none := by
  have hname : (t.dropWhile Text.isIndent).takeWhile isNameChar = [] := by
    rcases ht with hblank | hcomment
    · rw [List.dropWhile_eq_nil_iff.mpr hblank]
      rfl
    · obtain ⟨rest, hrest⟩ := List.head?_eq_some_iff.mp hcomment
      rw [hrest]
      rfl
  have hkind : SymbolKind.ofDefinition? [] = none := by decide
  simp only [ofText?, hname, hkind, Option.map_none, ite_self]

theorem exists_readLines_insertIdx (ht : t.IsRemark) {ts : List Text} {p : Nat}
    (hp : p ≤ ts.length) (inherited : Nat) :
    ∃ level, readLines inherited (ts.insertIdx p t) =
      (readLines inherited ts).insertIdx p ⟨t, level, []⟩ := by
  induction p generalizing inherited ts with
  | zero =>
    refine ⟨inherited, ?_⟩
    rw [List.insertIdx_zero, List.insertIdx_zero, readLines, Line.parse_of_isRemark ht]
  | succ p ih =>
    cases ts with
    | nil => simp at hp
    | cons a ts =>
      obtain ⟨level, hrest⟩ := ih (Nat.le_of_succ_le_succ hp) (Line.parse inherited a).level
      refine ⟨level, ?_⟩
      rw [List.insertIdx_succ_cons, readLines, hrest]
      rfl

end Remarks

def Handle.renumbered (σ : Nat → Nat) : Handle → Handle
  | root => root
  | line n => line (σ n)

def Registry.renumbered (σ : Nat → Nat) (r : Registry) : Registry :=
  { r with subjects := r.subjects.map fun s => { s with handle := s.handle.renumbered σ } }

theorem Handle.exists_next_eq (p : Nat) : ∃ after : Handle, after.next = p := by
  cases p with
  | zero => exact ⟨root, rfl⟩
  | succ n => exact ⟨line n, rfl⟩

theorem Handle.moved_one (h after : Handle) :
    h.moved after 1 = h.renumbered (shiftFrom after.next) := by
  cases h with
  | root => rfl
  | line n => exact moved_line_eq after n

theorem Registry.shiftAfter_one (r : Registry) (after : Handle) :
    r.shiftAfter after 1 = r.renumbered (shiftFrom after.next) := by
  simp only [shiftAfter, renumbered, Handle.moved_one]

theorem Registry.handle?_renumbered (r : Registry) (σ : Nat → Nat) (s : SubjectId) :
    (r.renumbered σ).handle? s = (r.handle? s).map (Handle.renumbered σ) := by
  rw [handle?, handle?, find?, find?, renumbered, List.find?_map, Option.map_map, Option.map_map]
  rfl

theorem findDefinition?_renumbered (name : Text) (σ : Nat → Nat) (xs : List (Line × Nat)) :
    findDefinition? name (xs.map fun x => (x.1, σ x.2)) =
      (findDefinition? name xs).map fun x => (x.1, σ x.2) :=
  List.find?_map

namespace Document

def Query.renumbered (σ : Nat → Nat) : Query → Query
  | .lineParameters n => .lineParameters (σ n)
  | q => q

/-- Whether subjects stand on the same lines in two documents, and see the same lines, all up to the
numbers of the lines. -/
structure Renumbered (d d' : Document) (σ : Nat → Nat) : Prop where
  getElem?_eq : ∀ n, d'.lines[σ n]? = d.lines[n]?
  registry_eq : d'.registry = d.registry.renumbered σ
  directAt_eq : ∀ s h, d.registry.handle? s = some h → ∃ xs, d.directAt h = .ok xs ∧
    d'.directAt (h.renumbered σ) = .ok (xs.map fun x => (x.1, σ x.2))
  commonAt_eq : ∀ s h, d.registry.handle? s = some h → ∃ xs, d.commonAt h = .ok xs ∧
    d'.commonAt (h.renumbered σ) = .ok (xs.map fun x => (x.1, σ x.2))

section Answers

variable {d d' : Document} {σ : Nat → Nat}

theorem Renumbered.handle?_eq (hsame : d.Renumbered d' σ) (s : SubjectId) :
    d'.registry.handle? s = (d.registry.handle? s).map (Handle.renumbered σ) := by
  rw [hsame.registry_eq, Registry.handle?_renumbered]

theorem Renumbered.directLine?_eq (hsame : d.Renumbered d' σ) (s : SubjectId) (name : Text) :
    ∃ found, d.directLine? s name = .ok found ∧
      d'.directLine? s name = .ok (found.map fun x => (x.1, σ x.2)) := by
  rw [directLine?, directLine?, hsame.handle?_eq]
  cases hs : d.registry.handle? s with
  | none => exact ⟨none, rfl, rfl⟩
  | some h =>
    obtain ⟨xs, hxs, hxs'⟩ := hsame.directAt_eq s h hs
    refine ⟨_, findDirect?_of_directAt hxs name, ?_⟩
    rw [← findDefinition?_renumbered]
    exact findDirect?_of_directAt hxs' name

theorem Renumbered.commonLine?_eq (hsame : d.Renumbered d' σ) (s : SubjectId) (name : Text) :
    ∃ found, d.commonLine? s name = .ok found ∧
      d'.commonLine? s name = .ok (found.map fun x => (x.1, σ x.2)) := by
  rw [commonLine?, commonLine?, hsame.handle?_eq]
  cases hs : d.registry.handle? s with
  | none => exact ⟨none, rfl, rfl⟩
  | some h =>
    obtain ⟨xs, hxs, hxs'⟩ := hsame.commonAt_eq s h hs
    refine ⟨_, findCommon?_of_commonAt hxs name, ?_⟩
    rw [← findDefinition?_renumbered]
    exact findCommon?_of_commonAt hxs' name

theorem Renumbered.hasDirect_eq (hsame : d.Renumbered d' σ) (s : SubjectId) (name : Text) :
    d'.hasDirect s name = d.hasDirect s name := by
  obtain ⟨found, hfound, hfound'⟩ := hsame.directLine?_eq s name
  rw [hasDirect, hasDirect, hfound, hfound', Checked.ok_bind, Checked.ok_bind, Option.isSome_map]

theorem Renumbered.hasCommon_eq (hsame : d.Renumbered d' σ) (s : SubjectId) (name : Text) :
    d'.hasCommon s name = d.hasCommon s name := by
  obtain ⟨found, hfound, hfound'⟩ := hsame.commonLine?_eq s name
  rw [hasCommon, hasCommon, hfound, hfound', Checked.ok_bind, Checked.ok_bind, Option.isSome_map]

theorem Renumbered.direct?_eq (hsame : d.Renumbered d' σ) (s : SubjectId) (name : Text) :
    d'.direct? s name = d.direct? s name := by
  obtain ⟨found, hfound, hfound'⟩ := hsame.directLine?_eq s name
  rw [direct?, direct?, hfound, hfound', Checked.ok_bind, Checked.ok_bind, foundParameters_map]

theorem Renumbered.common?_eq (hsame : d.Renumbered d' σ) (s : SubjectId) (name : Text) :
    d'.common? s name = d.common? s name := by
  obtain ⟨found, hfound, hfound'⟩ := hsame.commonLine?_eq s name
  rw [common?, common?, hfound, hfound', Checked.ok_bind, Checked.ok_bind, foundParameters_map]

theorem Renumbered.effective?_eq (hsame : d.Renumbered d' σ) (s : SubjectId) (name : Text) :
    d'.effective? s name = d.effective? s name := by
  rw [effective?, effective?, hsame.direct?_eq, hsame.common?_eq]

theorem Renumbered.ownParameters?_eq (hsame : d.Renumbered d' σ) (s : SubjectId) :
    d'.ownParameters? s = d.ownParameters? s := by
  have hown : d'.ownLine? s = d.ownLine? s := by
    rw [ownLine?, ownLine?, Registry.line?, Registry.line?, hsame.handle?_eq]
    cases d.registry.handle? s with
    | none => rfl
    | some h =>
      cases h with
      | root => rfl
      | line n => exact hsame.getElem?_eq n
  rw [ownParameters?, ownParameters?, hown]

theorem Renumbered.ownParameter?_eq (hsame : d.Renumbered d' σ) (s : SubjectId) (index : Nat) :
    d'.ownParameter? s index = d.ownParameter? s index := by
  rw [ownParameter?, ownParameter?, hsame.ownParameters?_eq]

theorem Renumbered.layout_eq (hsame : d.Renumbered d' σ) (s : SubjectId) :
    d'.layout s = d.layout s := by
  rw [layout, layout, hsame.handle?_eq]
  cases hs : d.registry.handle? s with
  | none => rfl
  | some h =>
    obtain ⟨direct, hdirect, hdirect'⟩ := hsame.directAt_eq s h hs
    obtain ⟨common, hcommon, hcommon'⟩ := hsame.commonAt_eq s h hs
    simp only [Option.map_some, hdirect, hdirect', hcommon, hcommon', Checked.ok_bind,
      findDefinition?_renumbered, Option.isSome_map]

/-- A document answers every question as one of which only the lines have other numbers. -/
theorem Renumbered.ask_eq (hsame : d.Renumbered d' σ) (q : Query) :
    d'.ask (q.renumbered σ) = d.ask q := by
  cases q with
  | hasDirect s name => simp only [Query.renumbered, ask, hsame.hasDirect_eq]
  | hasCommon s name => simp only [Query.renumbered, ask, hsame.hasCommon_eq]
  | hasEffective s name =>
    simp only [Query.renumbered, ask, hasEffective, hsame.hasDirect_eq, hsame.hasCommon_eq]
  | direct s name => simp only [Query.renumbered, ask, hsame.direct?_eq]
  | common s name => simp only [Query.renumbered, ask, hsame.common?_eq]
  | effective s name => simp only [Query.renumbered, ask, hsame.effective?_eq]
  | ownParameters s => simp only [Query.renumbered, ask, hsame.ownParameters?_eq]
  | ownParameter s index => simp only [Query.renumbered, ask, hsame.ownParameter?_eq]
  | layout s => simp only [Query.renumbered, ask, hsame.layout_eq]
  | spriteName s =>
    simp only [Query.renumbered, ask, spriteName, hsame.ownParameter?_eq, hsame.effective?_eq]
  | lineParameters n =>
    rw [Query.renumbered, ask, ask, hsame.getElem?_eq]
    cases d.lines[n]? <;> rfl

end Answers

section Inserting

variable {d d' : Document} {h after : Handle} {new : Line}

/-- Whether a line that is no definition has been inserted right after a handle. -/
structure Remarked (d d' : Document) (after : Handle) (new : Line) : Prop where
  inserted : InsertedAt d.lines d'.lines after.next new
  not_isDefinition : new.isDefinition = false
  registry_eq : d'.registry = d.registry.shiftAfter after 1
  inside : ∀ s h, d.registry.handle? s = some h → h.Inside d

theorem Remarked.directAt_eq (hnew : d.Remarked d' after new) (hh : h.Inside d)
    {xs : List (Line × Nat)} (hxs : d.directAt h = .ok xs) :
    d'.directAt (h.moved after 1) = .ok (xs.map fun x => (x.1, shiftFrom after.next x.2)) := by
  apply directAt_of_inserted hnew.inserted hh _ _ hxs
  · intro i l
    simp [hnew.inserted.directLine_shiftFrom_iff, hnew.not_isDefinition]
  · intro hl
    simpa [hnew.not_isDefinition] using hl.isDefinition

theorem Remarked.commonAt_eq (hnew : d.Remarked d' after new) {n : Nat} (hn : n < d.lines.length)
    {xs : List (Line × Nat)} (hxs : d.commonAt (.line n) = .ok xs) :
    d'.commonAt (.line (shiftFrom after.next n)) =
      .ok (xs.map fun x => (x.1, shiftFrom after.next x.2)) := by
  apply commonAt_of_inserted hnew.inserted hn _ _ hxs
  · intro i l
    simp [hnew.inserted.commonLine_shiftFrom_iff, hnew.not_isDefinition]
  · intro hl
    simpa [hnew.not_isDefinition] using hl.isDefinition

theorem Remarked.renumbered (hnew : d.Remarked d' after new) :
    d.Renumbered d' (shiftFrom after.next) := by
  refine ⟨hnew.inserted.getElem?_shiftFrom, ?_, fun s h hs => ?_, fun s h hs => ?_⟩
  · rw [hnew.registry_eq, Registry.shiftAfter_one]
  · obtain ⟨xs, hxs, -⟩ := exists_directAt (hnew.inside s h hs)
    rw [← Handle.moved_one]
    exact ⟨xs, hxs, hnew.directAt_eq (hnew.inside s h hs) hxs⟩
  · obtain ⟨xs, hxs, -⟩ := exists_commonAt (hnew.inside s h hs)
    refine ⟨xs, hxs, ?_⟩
    cases h with
    | root =>
      obtain rfl := Except.ok.inj hxs
      rfl
    | line n => exact hnew.commonAt_eq (hnew.inside s _ hs n rfl) hxs

end Inserting

section Reading

variable {source t : Text} {after : Handle} {p : Nat}

theorem exists_lines_insertLine (ht : t.IsRemark) (hlf : '\n' ∉ t)
    (hp : p ≤ (Text.split '\n' source).length) (options : Options) :
    ∃ level, (parse (Text.insertLine p t source) options).lines =
      (parse source options).lines.insertIdx p ⟨t, level, []⟩ := by
  obtain ⟨level, hlines⟩ := exists_readLines_insertIdx ht hp 0
  refine ⟨level, ?_⟩
  simp only [parse, readSource, Text.split_insertLine hlf, hlines]

theorem exists_remarked (ht : t.IsRemark) (hlf : '\n' ∉ t)
    (hafter : after.next ≤ (Text.split '\n' source).length) (options : Options) :
    ∃ new, (parse source options).Remarked
      (parse (Text.insertLine after.next t source) options) after new := by
  obtain ⟨level, hlines⟩ := exists_lines_insertLine ht hlf hafter options
  have hle := hafter.trans_eq (length_lines_parse source options).symm
  rw [← take_append_cons_drop hle] at hlines
  refine ⟨⟨t, level, []⟩, ?_, rfl, ?_, fun s h hs n hn => lt_length_of_handle?_parse (hn ▸ hs)⟩
  · rw [hlines]
    exact insertedAt_take_drop hle _
  · have hintroduces := Line.ne_token_of_not_isDefinition (l := ⟨t, level, []⟩) rfl
    have hregistry := Registry.ofLines_inserted hintroduces hle
    rw [← hlines] at hregistry
    exact hregistry

/-- A text with another comment or blank line says the same: there are the same subjects on the same
lines, every question has the same answer, and the outline is the same. Only the numbers of the
lines from the new one on change. -/
theorem parse_insertLine_renumbers (source : Text) (options : Options) {t : Text} {p : Nat}
    (ht : t.IsRemark) (hlf : '\n' ∉ t) (hp : p ≤ (Text.split '\n' source).length) :
    let d := parse source options
    let d' := parse (Text.insertLine p t source) options
    d'.registry = d.registry.renumbered (shiftFrom p) ∧
      (∀ q, ∃ answer, d.ask q = .ok answer ∧
        d'.ask (q.renumbered (shiftFrom p)) = .ok answer) ∧
      Outline.ofLines d'.lines =
        (Outline.ofLines d.lines).map (Outline.map (Heading.renumbered (shiftFrom p))) := by
  intro d d'
  obtain ⟨after, rfl⟩ := Handle.exists_next_eq p
  obtain ⟨new, hnew⟩ := exists_remarked ht hlf hp options
  have hsame : d.Renumbered d' (shiftFrom after.next) := hnew.renumbered
  refine ⟨hsame.registry_eq, fun q => ?_, ?_⟩
  · obtain ⟨answer, hanswer⟩ := (valid_parse source Options.indents_default).exists_ask q
    exact ⟨answer, hanswer, (hsame.ask_eq q).trans hanswer⟩
  · obtain ⟨level, hlines⟩ := exists_lines_insertLine ht hlf hp options
    have hle := hp.trans_eq (length_lines_parse source options).symm
    rw [hlines]
    exact Outline.ofLines_insertIdx (Heading.ofText?_of_isRemark ht) hle

/-- A comment that is indented by a tab, between an input and its sprite. -/
theorem parse_insertLine_renumbers_below_input :
    let source := "padding 1\ninput a\n  sprite b\n\n  sprite".toList
    let t := "\t # sprite c".toList
    let source' := "padding 1\ninput a\n\t # sprite c\n  sprite b\n\n  sprite".toList
    let d := parse source
    let d' := parse source'
    Text.IsRemark t ∧ '\n' ∉ t ∧ 2 ≤ (Text.split '\n' source).length ∧
      Text.insertLine 2 t source = source' ∧
      d'.registry = d.registry.renumbered (shiftFrom 2) ∧
      d.registry.handle? 2 = some (.line 2) ∧ d'.registry.handle? 2 = some (.line 3) ∧
      d'.ask (.spriteName 2) = .ok (.name "b".toList) ∧
      d'.ask (.lineParameters 5) = .ok (.parameters (some [])) ∧
      Outline.ofLines d'.lines =
        (Outline.ofLines d.lines).map (Outline.map (Heading.renumbered (shiftFrom 2))) := by
  intro source t source' d d'
  have ht : Text.IsRemark t := by decide
  have hlf : '\n' ∉ t := by decide
  have hp : 2 ≤ (Text.split '\n' source).length := by decide
  have hsource' : Text.insertLine 2 t source = source' := by decide
  obtain ⟨hregistry, hask, houtline⟩ := parse_insertLine_renumbers source {} ht hlf hp
  rw [hsource'] at hregistry hask houtline
  have hhandle : d.registry.handle? 2 = some (.line 2) := by decide
  have hanswer : ∀ {q answer}, d.ask q = .ok answer →
      d'.ask (q.renumbered (shiftFrom 2)) = .ok answer := by
    intro q answer h
    obtain ⟨answer', h', hsame⟩ := hask q
    obtain rfl := Except.ok.inj (h'.symm.trans h)
    exact hsame
  refine ⟨ht, hlf, hp, hsource', hregistry, hhandle, ?_, ?_, ?_, houtline⟩
  · rw [hregistry, Registry.handle?_renumbered, hhandle]
    rfl
  · exact hanswer (q := .spriteName 2) (by decide)
  · exact hanswer (q := .lineParameters 4) (by decide)

end Reading

end Document
end SpriteConfig
