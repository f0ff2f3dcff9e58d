import Mathlib.Data.List.Forall2
import SpriteConfig.Proofs.Line
import SpriteConfig.Proofs.Lookup
/-!
# Lines that agree

Lines agree if they say the same; the level of a line that defines nothing does not count. Lines are
alike if they agree but for the parameters. Lookups find alike lines in alike documents, and in
documents that agree they find the same; alike lines have the same subjects. A settled line agrees
with what is read from its text.
-/
namespace SpriteConfig

open List (Forall₂)

namespace Line

/-- Whether two lines have the same text and define the same, on the same level if anything. -/
structure Agrees (l m : Line) : Prop where
  text_eq : l.text = m.text
  definition_eq : l.definition = m.definition
  level_eq : l.isDefinition = true → l.level = m.level

/-- Whether two lines define the same on the same level, or define nothing in the same text. -/
structure Alike (l m : Line) : Prop where
  definition_eq : l.definition = m.definition
  level_eq : l.isDefinition = true → l.level = m.level
  text_eq : l.isDefinition = false → l.text = m.text

/-- Whether a line agrees with what is read from its text, whatever line comes before. -/
def Settled (l : Line) : Prop := ∀ inherited, l.Agrees (parse inherited l.text)

variable {l m : Line}

theorem Agrees.refl (l : Line) : l.Agrees l := ⟨rfl, rfl, fun _ => rfl⟩

theorem Agrees.alike (h : l.Agrees m) : l.Alike m :=
  ⟨h.definition_eq, h.level_eq, fun _ => h.text_eq⟩

theorem Agrees.eq (h : l.Agrees m) (hd : l.isDefinition = true) : l = m := by
  obtain ⟨text, level, definition⟩ := l
  obtain ⟨text', level', definition'⟩ := m
  obtain ⟨rfl, rfl, hlevel⟩ := h
  obtain rfl : level = level' := hlevel hd
  rfl

theorem Alike.refl (l : Line) : l.Alike l := (Agrees.refl l).alike

theorem alike_setParameters {values : List Text} (hset : l.setParameters values = .ok m) :
    l.Alike m := by
  rw [setParameters] at hset
  split at hset
  · next hd =>
    obtain ⟨parts, -, hset⟩ := Checked.bind_eq_ok.mp hset
    rw [← Except.ok.inj hset]
    exact ⟨rfl, fun _ => rfl, fun hnot => by simp [hd] at hnot⟩
  · exact Except.ok.inj hset ▸ Alike.refl l

theorem Alike.isDefinition_eq (h : l.Alike m) : l.isDefinition = m.isDefinition := by
  rw [isDefinition, isDefinition, h.definition_eq]

theorem Alike.closes_eq (h : l.Alike m) (level : Nat) : l.closes level = m.closes level := by
  rw [closes, closes, ← h.isDefinition_eq]
  cases hd : l.isDefinition with
  | false => rfl
  | true => rw [h.level_eq hd]

theorem Alike.isNestedDeeper_eq (h : l.Alike m) (level : Nat) :
    l.isNestedDeeper level = m.isNestedDeeper level := by
  rw [isNestedDeeper, isNestedDeeper, ← h.isDefinition_eq]
  cases hd : l.isDefinition with
  | false => rw [h.text_eq hd]
  | true => rfl

theorem Alike.isSheetLine_eq (h : l.Alike m) :
    Registry.isSheetLine l = Registry.isSheetLine m := by
  rw [Registry.isSheetLine, Registry.isSheetLine, ← h.definition_eq]
  cases hd : l.isDefinition with
  | true => rw [h.level_eq hd]
  | false =>
    have hne : l.definition ≠ SubjectKind.sheet.token := by
      have hnil : l.definition = [] := by simpa [isDefinition] using hd
      rw [hnil]
      decide
    simp [hne]

theorem isDefinition_of_eq_token {kind : SubjectKind} (h : l.definition = kind.token) :
    l.isDefinition = true := by
  rw [isDefinition, h]
  cases kind <;> rfl

theorem ne_token_of_not_isDefinition (h : l.isDefinition = false) (kind : SubjectKind) :
    l.definition ≠ kind.token := by
  intro hkind
  simp [isDefinition_of_eq_token hkind] at h

theorem settled_parse (inherited : Nat) (t : Text) : (parse inherited t).Settled := by
  intro inherited'
  rw [parse_text]
  rcases parse_cases t with h | ⟨indent, name, rest, rfl, hi, hn, hr⟩
  · rw [h, h]
    refine ⟨rfl, rfl, fun hd => ?_⟩
    simp [isDefinition] at hd
  · rw [parse_of_word hi hn hr, parse_of_word hi hn hr]
    exact Agrees.refl _

theorem Settled.isWord (h : l.Settled) (hd : l.isDefinition = true) : l.definition.IsWord := by
  have hdef := (h 0).definition_eq
  rcases parse_cases l.text with hnone | ⟨indent, name, rest, ht, hi, hn, hr⟩
  · rw [hnone] at hdef
    simp [isDefinition, hdef] at hd
  · rw [ht, parse_of_word hi hn hr] at hdef
    rw [hdef]
    exact hn

theorem Reads.settled {indent rest : Text} (h : l.Reads indent rest) (hn : l.definition.IsWord)
    (hr : ∀ c, rest.head? = some c → Text.isIndent c = true) : l.Settled := by
  intro inherited
  rw [h.text_eq, parse_of_word h.isIndentation hn hr, ← h.text_eq]
  exact ⟨rfl, rfl, fun _ => h.level_eq⟩

theorem head_tail_isIndent (values : List Text) (comment : Option Text) :
    ∀ c, (tail values comment).head? = some c → Text.isIndent c = true := by
  intro c hc
  simp only [tail] at hc
  split at hc
  · cases comment with
    | none => simp at hc
    | some comment =>
      simp only [List.nil_append, List.head?_cons, Option.some.injEq] at hc
      exact hc ▸ rfl
  · simp only [List.cons_append, List.head?_cons, Option.some.injEq] at hc
    exact hc ▸ rfl

theorem settled_make {indent name : Text} (hi : indent.IsIndentation) (hn : name.IsWord)
    (values : List Text) : (make indent name values).Settled := by
  refine (reads_make hi hn.ne_nil values).settled ?_ (head_tail_isIndent _ _)
  rw [make_definition]
  exact hn

theorem Settled.setParameters (h : l.Settled) (hs : l.Shaped) {values : List Text}
    (hset : l.setParameters values = .ok m) : m.Settled := by
  cases hd : l.isDefinition with
  | false =>
    rw [setParameters_of_not_isDefinition hd, Except.ok.injEq] at hset
    exact hset ▸ h
  | true =>
    obtain ⟨indent, rest, hr⟩ := hs hd
    rw [hr.setParameters_eq hd, Except.ok.injEq] at hset
    subst hset
    exact (hr.withParameters _ _).settled (h.isWord hd) (head_tail_isIndent _ _)

end Line

section Lookups

variable {ls ms : List Line}

theorem forall₂_readLines (h : ∀ l ∈ ls, l.Settled) (inherited : Nat) :
    Forall₂ Line.Agrees ls (readLines inherited (ls.map Line.text)) := by
  induction ls generalizing inherited with
  | nil => exact .nil
  | cons l ls ih =>
    refine .cons (h l List.mem_cons_self inherited) (ih ?_ _)
    exact fun m hm => h m (List.mem_cons_of_mem _ hm)

theorem settled_of_mem_readLines {inherited : Nat} {ts : List Text} {l : Line}
    (h : l ∈ readLines inherited ts) : l.Settled ∧ l.text ∈ ts := by
  induction ts generalizing inherited with
  | nil => simp [readLines] at h
  | cons t ts ih =>
    rcases List.mem_cons.mp h with rfl | h
    · exact ⟨Line.settled_parse inherited t, by simp⟩
    · exact ⟨(ih h).1, List.mem_cons_of_mem _ (ih h).2⟩

theorem settled_of_mem_readSource {source : Text} {l : Line} (h : l ∈ readSource source) :
    l.Settled ∧ '\n' ∉ l.text := by
  obtain ⟨hs, htext⟩ := settled_of_mem_readLines h
  exact ⟨hs, LineBreak.free_lf.mp (LineBreak.free_of_mem_split htext)⟩

theorem split_writeSource (hne : ls ≠ []) (hlf : ∀ l ∈ ls, '\n' ∉ l.text) :
    LineBreak.lf.split (writeSource ls) = ls.map Line.text := by
  refine LineBreak.split_join .lf (by simpa using hne) fun t ht => ?_
  obtain ⟨l, hl, rfl⟩ := List.mem_map.mp ht
  exact LineBreak.free_lf.mpr (hlf l hl)

theorem forall₂_readSource_writeSource (hne : ls ≠ []) (hs : ∀ l ∈ ls, l.Settled)
    (hlf : ∀ l ∈ ls, '\n' ∉ l.text) : Forall₂ Line.Agrees ls (readSource (writeSource ls)) := by
  have hsplit : Text.split '\n' (writeSource ls) = ls.map Line.text := split_writeSource hne hlf
  rw [readSource, hsplit]
  exact forall₂_readLines hs 0

section Relations

variable {R : Line → Line → Prop}

private theorem forall₂_takeWhile (hR : ∀ {l m}, R l m → l.Alike m) (h : Forall₂ R ls ms)
    (level : Nat) :
    Forall₂ R (ls.takeWhile fun l => !l.closes level) (ms.takeWhile fun l => !l.closes level) := by
  induction h with
  | nil => exact .nil
  | cons hab _ ih =>
    simp only [List.takeWhile_cons, (hR hab).closes_eq level]
    split
    · exact .cons hab ih
    · exact .nil

private theorem forall₂_dropTrailing (hR : ∀ {l m}, R l m → l.Alike m) (h : Forall₂ R ls ms)
    (level : Nat) :
    Forall₂ R (dropTrailing (fun l => !l.isNestedDeeper level) ls)
      (dropTrailing (fun l => !l.isNestedDeeper level) ms) := by
  induction h with
  | nil => exact .nil
  | @cons l m ls ms hab _ ih =>
    rw [dropTrailing, dropTrailing]
    generalize dropTrailing (fun l : Line => !l.isNestedDeeper level) ls = ls' at ih
    generalize dropTrailing (fun l : Line => !l.isNestedDeeper level) ms = ms' at ih
    cases ih with
    | nil =>
      simp only [(hR hab).isNestedDeeper_eq level]
      split
      · exact .nil
      · exact .cons hab .nil
    | cons hcd hrest => exact .cons hab (.cons hcd hrest)

theorem forall₂_blockBelow (hR : ∀ {l m}, R l m → l.Alike m) (h : Forall₂ R ls ms) (level : Nat) :
    Forall₂ R (blockBelow level ls) (blockBelow level ms) :=
  forall₂_dropTrailing hR (forall₂_takeWhile hR h level) level

/-- Whether two numbered lines are related and have the same number. -/
def Numbered (R : Line → Line → Prop) (x y : Line × Nat) : Prop := R x.1 y.1 ∧ x.2 = y.2

theorem forall₂_zipIdx (h : Forall₂ R ls ms) (start : Nat) :
    Forall₂ (Numbered R) (ls.zipIdx start) (ms.zipIdx start) := by
  induction h generalizing start with
  | nil => exact .nil
  | cons hab _ ih => exact .cons ⟨hab, rfl⟩ (ih _)

variable {xs ys : List (Line × Nat)}

theorem forall₂_directLines (hR : ∀ {l m}, R l m → l.Alike m) (h : Forall₂ (Numbered R) xs ys)
    (least : Option Nat) :
    Forall₂ (Numbered R) (directLines least xs) (directLines least ys) := by
  induction h generalizing least with
  | nil => exact .nil
  | @cons x y xs ys hab _ ih =>
    obtain ⟨l, n⟩ := x
    obtain ⟨m, k⟩ := y
    have halike : l.Alike m := hR hab.1
    rw [directLines, directLines, ← halike.isDefinition_eq]
    cases hd : l.isDefinition with
    | false => exact ih least
    | true =>
      rw [← halike.level_eq hd]
      split
      · exact .cons hab (ih _)
      · exact ih least

theorem forall₂_commonLines (hR : ∀ {l m}, R l m → l.Alike m) (h : Forall₂ (Numbered R) xs ys)
    (below : Nat) :
    Forall₂ (Numbered R) (commonLines below xs) (commonLines below ys) := by
  induction h generalizing below with
  | nil => exact .nil
  | @cons x y xs ys hab _ ih =>
    obtain ⟨l, n⟩ := x
    obtain ⟨m, k⟩ := y
    have halike : l.Alike m := hR hab.1
    rw [commonLines, commonLines, ← halike.isDefinition_eq]
    cases hd : l.isDefinition with
    | false => exact ih below
    | true =>
      rw [← halike.level_eq hd]
      split
      · exact .cons hab (ih _)
      · exact ih below

theorem rel_findDefinition? (hR : ∀ {l m}, R l m → l.Alike m) (h : Forall₂ (Numbered R) xs ys)
    (name : Text) :
    Option.Rel (Numbered R) (findDefinition? name xs) (findDefinition? name ys) := by
  induction h with
  | nil => exact .none
  | @cons x y xs ys hab _ ih =>
    obtain ⟨l, n⟩ := x
    obtain ⟨m, k⟩ := y
    have hdef : l.definition = m.definition := (hR hab.1).definition_eq
    by_cases hname : m.definition = name
    · simp only [findDefinition?, List.find?_cons, hdef, hname, decide_true]
      exact .some hab
    · simp only [findDefinition?, List.find?_cons, hdef, hname, decide_false]
      exact ih

theorem exists_getElem?_of_forall₂ (h : Forall₂ R ls ms) {n : Nat} {l : Line}
    (hl : ls[n]? = some l) : ∃ m, ms[n]? = some m ∧ R l m := by
  induction h generalizing n with
  | nil => simp at hl
  | @cons a b ls ms hab _ ih =>
    cases n with
    | zero => exact ⟨b, rfl, Option.some.inj hl ▸ hab⟩
    | succ n => exact ih hl

end Relations

private theorem subjectsFrom_congr (h : Forall₂ Line.Alike ls ms) (n id : Nat)
    (sheet input : Option SubjectId) :
    Registry.subjectsFrom n id sheet input ls = Registry.subjectsFrom n id sheet input ms := by
  induction h generalizing n id sheet input with
  | nil => rfl
  | cons hab _ ih =>
    simp only [Registry.subjectsFrom, hab.isSheetLine_eq, hab.definition_eq, ih]

theorem any_isSheetLine_congr (h : Forall₂ Line.Alike ls ms) :
    ls.any Registry.isSheetLine = ms.any Registry.isSheetLine := by
  induction h with
  | nil => rfl
  | cons hab _ ih => rw [List.any_cons, List.any_cons, hab.isSheetLine_eq, ih]

theorem ofLines_congr (h : Forall₂ Line.Alike ls ms) :
    Registry.ofLines ls = Registry.ofLines ms := by
  simp only [Registry.ofLines, any_isSheetLine_congr h, subjectsFrom_congr h]

end Lookups

/-- Whether a handle stands before the first line of a document or on a definition. -/
def Handle.Defined (h : Handle) (d : Document) : Prop :=
  ∀ n, h = .line n → ∃ l, d.lines[n]? = some l ∧ l.isDefinition = true

theorem Handle.defined_root (d : Document) : Handle.root.Defined d := nofun

theorem Handle.Defined.inside {h : Handle} {d : Document} (hh : h.Defined d) : h.Inside d := by
  intro n hn
  obtain ⟨l, hl, -⟩ := hh n hn
  exact (List.getElem?_eq_some_iff.mp hl).1

namespace Document

variable {R : Line → Line → Prop} {d d' : Document} {h : Handle} {found : Option (Line × Nat)}

theorem rel_findDirect? (hR : ∀ {l m}, R l m → l.Alike m) (ha : Forall₂ R d.lines d'.lines)
    (hh : h.Defined d) {name : Text} (hfound : d.findDirect? h name = .ok found) :
    ∃ found', d'.findDirect? h name = .ok found' ∧ Option.Rel (Numbered R) found found' := by
  cases h with
  | root =>
    have hdirect := forall₂_directLines hR (forall₂_zipIdx ha 0) none
    exact ⟨_, rfl, Except.ok.inj hfound ▸ rel_findDefinition? hR hdirect name⟩
  | line n =>
    obtain ⟨l, hl, hd⟩ := hh n rfl
    obtain ⟨m, hm, hab⟩ := exists_getElem?_of_forall₂ ha hl
    have hblock := forall₂_blockBelow hR (List.forall₂_drop (n + 1) ha) l.level
    have hdirect := forall₂_directLines hR (forall₂_zipIdx hblock (n + 1)) none
    simp only [findDirect?, directAt, block_eq hl, Checked.ok_bind] at hfound
    simp only [findDirect?, directAt, block_eq hm, Checked.ok_bind, ← (hR hab).level_eq hd]
    exact ⟨_, rfl, Except.ok.inj hfound ▸ rel_findDefinition? hR hdirect name⟩

theorem rel_findCommon? (hR : ∀ {l m}, R l m → l.Alike m) (ha : Forall₂ R d.lines d'.lines)
    (hh : h.Defined d) {name : Text} (hfound : d.findCommon? h name = .ok found) :
    ∃ found', d'.findCommon? h name = .ok found' ∧ Option.Rel (Numbered R) found found' := by
  cases h with
  | root => exact ⟨_, rfl, Except.ok.inj hfound ▸ .none⟩
  | line n =>
    obtain ⟨l, hl, hd⟩ := hh n rfl
    obtain ⟨m, hm, hab⟩ := exists_getElem?_of_forall₂ ha hl
    have habove := List.forall₂_reverse_iff.mpr (forall₂_zipIdx (List.forall₂_take n ha) 0)
    have hcommon := forall₂_commonLines hR habove l.level
    simp only [findCommon?, commonAt, line_eq hl, Checked.ok_bind] at hfound
    simp only [findCommon?, commonAt, line_eq hm, Checked.ok_bind, ← (hR hab).level_eq hd]
    exact ⟨_, rfl, Except.ok.inj hfound ▸ rel_findDefinition? hR hcommon name⟩

private theorem eq_of_rel_agrees {found' : Option (Line × Nat)}
    (h : Option.Rel (Numbered Line.Agrees) found found')
    (hd : ∀ l n, found = some (l, n) → l.isDefinition = true) : found' = found := by
  cases h with
  | none => rfl
  | @some x y hab =>
    obtain ⟨l, n⟩ := x
    obtain ⟨m, k⟩ := y
    obtain ⟨hab, rfl⟩ := hab
    have hlm : l = m := Line.Agrees.eq hab (hd l n rfl)
    rw [hlm]

theorem findDirect?_congr (ha : Forall₂ Line.Agrees d.lines d'.lines) (hh : h.Defined d)
    (name : Text) : d'.findDirect? h name = d.findDirect? h name := by
  obtain ⟨found, hfound, hat⟩ := exists_findDirect? hh.inside name
  obtain ⟨found', hfound', hrel⟩ := rel_findDirect? Line.Agrees.alike ha hh hfound
  rw [hfound, hfound', eq_of_rel_agrees hrel fun l n h => (hat l n h).2.1]

theorem findCommon?_congr (ha : Forall₂ Line.Agrees d.lines d'.lines) (hh : h.Defined d)
    (name : Text) : d'.findCommon? h name = d.findCommon? h name := by
  obtain ⟨found, hfound, hat⟩ := exists_findCommon? hh.inside name
  obtain ⟨found', hfound', hrel⟩ := rel_findCommon? Line.Agrees.alike ha hh hfound
  rw [hfound, hfound', eq_of_rel_agrees hrel fun l n h => (hat l n h).2.1]

end Document
end SpriteConfig
