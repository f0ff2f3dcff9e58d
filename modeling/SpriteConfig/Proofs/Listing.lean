import SpriteConfig.Command.Run
import SpriteConfig.Proofs.Numbered
import SpriteConfig.Proofs.Query
import SpriteConfig.Proofs.Rows
import SpriteConfig.Proofs.Selector
/-!
# The listing of subjects

The listing that a command prints has one row for each subject, which begins with the selector of
the subject. A row that is printed belongs to one subject only, and the selector in it is read as
the one that resolves to this subject.
-/
namespace SpriteConfig

open List (Forall₂)

theorem Document.length_subjects_parse_le (source : Text) (options : Options) :
    (parse source options).registry.subjects.length ≤ source.length + 2 := by
  have hsubjects : (parse source options).registry.subjects.length ≤
      (parse source options).lines.length + 1 :=
    (Registry.scanned_ofLines (readSource source)).length_le
  have hcount : source.count '\n' ≤ source.length := List.count_le_length
  rw [length_lines_parse, Text.length_split] at hsubjects
  omega

namespace Command

/-- What a row shows of the line of a subject: its number, counted from one, or a dash if the
subject stands on none. -/
inductive ShowsLine (r : Registry) (id : SubjectId) : Text → Prop
  | number {n : Nat} (hline : r.line? id = some n) : ShowsLine r id (Text.ofNat (n + 1))
  | dash (hline : r.line? id = none) : ShowsLine r id ['-']

/-- Whether a text is the row of a subject: the selector, the line, and for an input its layout and
its file, for a sprite its id. -/
inductive IsRow (d : Document) : Selector × SubjectId → Text → Prop
  | sheet {n : Nat} {id : SubjectId} {line : Text} (hline : ShowsLine d.registry id line) :
    IsRow d (.sheet n, id) ((Selector.sheet n).display ++ '\t' :: "line ".toList ++ line ++ ['\n'])
  | input {n : Nat} {id : SubjectId} {line : Text} {layout : Layout} {file : Option Text}
    (hline : ShowsLine d.registry id line) (hlayout : d.layout id = .ok layout)
    (hfile : d.ownParameter? id 0 = .ok file) :
    IsRow d (.input n, id) ((Selector.input n).display ++ '\t' :: "line ".toList ++ line ++
      '\t' :: layout.token ++ '\t' :: file.getD [] ++ ['\n'])
  | sprite {i j : Nat} {id : SubjectId} {line name : Text} (hline : ShowsLine d.registry id line)
    (hname : d.spriteName id = .ok name) :
    IsRow d (.sprite i j, id) ((Selector.sprite i j).display ++ '\t' :: "line ".toList ++ line ++
      '\t' :: name ++ ['\n'])

variable {d : Document} {row row' : Selector × SubjectId} {text : Text}

theorem showsLine_lineNumber (d : Document) (id : SubjectId) :
    ShowsLine d.registry id (lineNumber d id) := by
  rw [lineNumber]
  cases hline : d.registry.line? id with
  | none => exact .dash hline
  | some n => exact .number hline

theorem exists_subjectRow (hv : d.Valid) (row : Selector × SubjectId) :
    ∃ text, subjectRow d row.1 row.2 = .ok text ∧ IsRow d row text := by
  obtain ⟨sel, id⟩ := row
  have hline := showsLine_lineNumber d id
  cases sel with
  | sheet n =>
    refine ⟨_, rfl, ?_⟩
    simpa [Text.join] using IsRow.sheet (n := n) hline
  | input n =>
    obtain ⟨file, hfile⟩ := hv.exists_ownParameter? id 0
    obtain ⟨layout, hlayout⟩ := hv.exists_layout id
    refine ⟨_, ?_, IsRow.input hline hlayout hfile⟩
    simp [subjectRow, subjectDetails, hfile, hlayout, Text.join]
  | sprite i j =>
    obtain ⟨answer, hanswer⟩ := hv.exists_ask (.spriteName id)
    obtain ⟨name, hname, -⟩ := Checked.map_eq_ok.mp hanswer
    refine ⟨_, ?_, IsRow.sprite hline hname⟩
    simp [subjectRow, subjectDetails, hname, Text.join]

theorem IsRow.splitOnce? (h : IsRow d row text) :
    ∃ rest, Text.splitOnce? '\t' text = some (row.1.display, rest) := by
  have hindex (n : Nat) : '\t' ∉ Text.ofNat n := Text.not_mem_ofNat (by decide) n
  have htab : ∀ sel : Selector, '\t' ∉ sel.display := by
    intro sel hmem
    cases sel with
    | sheet n => exact (List.mem_append.mp hmem).elim (by decide) (hindex n)
    | input n => exact (List.mem_append.mp hmem).elim (by decide) (hindex n)
    | sprite i j =>
      rcases List.mem_append.mp hmem with hmem | hmem
      · exact (List.mem_append.mp hmem).elim (by decide) (hindex i)
      · exact (List.mem_cons.mp hmem).elim (by decide) (hindex j)
  cases h <;> simp only [List.append_assoc, List.cons_append] <;>
    exact ⟨_, Text.splitOnce?_append (htab _) _⟩

theorem IsRow.selector_eq (h : IsRow d row text) (h' : IsRow d row' text) : row.1 = row'.1 := by
  obtain ⟨rest, hrest⟩ := h.splitOnce?
  obtain ⟨rest', hrest'⟩ := h'.splitOnce?
  exact Selector.display_injective (Prod.mk.inj (Option.some.inj (hrest.symm.trans hrest'))).1

theorem IsRow.withOptions {source : Text} (h : IsRow (Document.parse source) row text)
    (options : Options) : IsRow (Document.parse source options) row text := by
  cases h with
  | sheet hline => exact .sheet hline
  | input hline hlayout hfile => exact .input hline hlayout hfile
  | sprite hline hname => exact .sprite hline hname

theorem exists_of_forall₂ {α β : Type} {R : α → β → Prop} {as : List α} {bs : List β}
    (h : Forall₂ R as bs) {b : β} (hb : b ∈ bs) : ∃ a ∈ as, R a b := by
  induction h with
  | nil => cases hb
  | @cons a b' as bs hab _ ih =>
    rcases List.mem_cons.mp hb with rfl | hb
    · exact ⟨a, List.mem_cons_self, hab⟩
    · obtain ⟨a', ha', hab'⟩ := ih hb
      exact ⟨a', List.mem_cons_of_mem a ha', hab'⟩

theorem exists_mapM {α β : Type} {f : α → Checked β} {P : α → β → Prop}
    (h : ∀ a, ∃ b, f a = .ok b ∧ P a b) (as : List α) :
    ∃ bs, as.mapM f = .ok bs ∧ Forall₂ P as bs := by
  induction as with
  | nil => exact ⟨[], rfl, .nil⟩
  | cons a as ih =>
    obtain ⟨b, hb, hab⟩ := h a
    obtain ⟨bs, hbs, hall⟩ := ih
    exact ⟨b :: bs, by rw [List.mapM_cons, hb, Checked.ok_bind, hbs]; rfl, .cons hab hall⟩

theorem exists_printSubjects (hv : d.Valid) :
    ∃ printed, printSubjects d = .ok printed.flatten ∧
      Forall₂ (IsRow d) (Selector.rows d.registry) printed := by
  obtain ⟨printed, hprinted, hrows⟩ := exists_mapM (exists_subjectRow hv) (Selector.rows d.registry)
  refine ⟨printed, ?_, hrows⟩
  change List.flatten <$> (Selector.rows d.registry).mapM (fun row => subjectRow d row.1 row.2) = _
  rw [hprinted]
  rfl

theorem loadDocument_of_loadText {read : ReadFile} {file : Text} (options : Options)
    (h : loadText read file = .ok text) :
    loadDocument read options file =
      checked (Document.parse ((LineBreak.detect text).normalize text) options).numbered := by
  have hsession : ((Session.empty options).reread text).1.document =
      Document.parse ((LineBreak.detect text).normalize text) options := rfl
  rw [loadDocument, h]
  change (do
    let session ← checked ((Session.empty options).reread text).1.numbered
    return session.document) = _
  rw [Session.numbered, hsession]
  cases (Document.parse ((LineBreak.detect text).normalize text) options).numbered <;> rfl

section Subjects

variable {read : ReadFile} {options : Options} {file source : Text}

theorem run_subjects_of_not_isNumbered (htext : loadText read file = .ok text)
    (hsource : (LineBreak.detect text).normalize text = source)
    (hd : ¬ (Document.parse source options).registry.IsNumbered) :
    (Command.subjects file).run read options = .error (.fault .tooManySubjects) := by
  rw [Command.run, loadDocument_of_loadText options htext, hsource,
    Document.numbered_of_not_isNumbered hd]
  rfl

theorem exists_run_subjects (htext : loadText read file = .ok text)
    (hsource : (LineBreak.detect text).normalize text = source)
    (hd : (Document.parse source options).registry.IsNumbered) :
    ∃ printed, (Command.subjects file).run read options = .ok (prints printed.flatten) ∧
      Forall₂ (IsRow (Document.parse source options))
        (Selector.rows (Document.parse source options).registry) printed := by
  obtain ⟨printed, hprinted, hrows⟩ := exists_printSubjects
    (Document.valid_parse source Options.indents_default)
  have hprinted : printSubjects (Document.parse source options) = .ok printed.flatten := hprinted
  refine ⟨printed, ?_, hrows.imp fun _ _ h => h.withOptions options⟩
  rw [Command.run, loadDocument_of_loadText options htext, hsource,
    Document.numbered_of_isNumbered hd]
  change (do return prints (← checked (printSubjects (Document.parse source options)))) = _
  rw [hprinted]
  rfl

end Subjects

end Command

namespace Selector

/-- In a document that was just read, each subject is what exactly one selector resolves to, the one
in its row of the listing. What is written of a selector reads as the selector, and so resolves to
the subject of the row: a text of less than `maxWord64` characters has no index of more bits. The
command prints these rows for every file with this text, and each of them is the row of one subject
only. -/
theorem resolve_iff_mem_rows (source : Text) (options : Options) :
    let d := Document.parse source options
    let listed := rows d.registry
    (listed.Nodup ∧ ∀ sel id, (sel, id) ∈ listed ↔ sel.resolve d = .ok id) ∧
    (∀ s ∈ d.registry.subjects, ∃! sel : Selector, sel.resolve d = .ok s.id) ∧
    (∀ sel sel' : Selector, ∀ id, sel.resolve d = .ok id → sel'.resolve d = .ok id → sel = sel') ∧
    (∀ sel : Selector, sel.Fits → parse sel.display = .ok sel) ∧
    (source.length < maxWord64 →
      ∀ sel id, (sel, id) ∈ listed → (parse sel.display).bind (·.resolve d) = .ok id) ∧
    ∀ read file text, Command.loadText read file = .ok text →
      (LineBreak.detect text).normalize text = source →
      (¬ d.registry.IsNumbered →
        (Command.subjects file).run read options = .error (.fault .tooManySubjects)) ∧
      (d.registry.IsNumbered → ∃ printed,
        (Command.subjects file).run read options = .ok (Command.prints printed.flatten) ∧
        Forall₂ (Command.IsRow d) listed printed ∧
        ∀ shown ∈ printed, ∃! row, row ∈ listed ∧ Command.IsRow d row shown) := by
  intro d listed
  have hcoherent : d.registry.Coherent d.lines := Registry.coherent_ofLines (readSource source)
  have hadopts : d.registry.Adopts := (Registry.scanned_ofLines (readSource source)).adopts
  have hlisted (sel : Selector) (id : SubjectId) :
      (sel, id) ∈ listed ↔ sel.resolve d = .ok id := mem_rows_iff.trans resolve_eq_ok_iff.symm
  have hunique : ∀ sel sel' : Selector, ∀ id,
      sel.resolve d = .ok id → sel'.resolve d = .ok id → sel = sel' := fun sel sel' id h h' =>
    eq_of_find? hcoherent (resolve_eq_ok_iff.mp h) (resolve_eq_ok_iff.mp h')
  refine ⟨⟨nodup_rows d.registry, hlisted⟩, fun s hs => ?_, hunique, fun sel => parse_display,
    ?_, ?_⟩
  · obtain ⟨sel, hsel⟩ := exists_find?_eq hcoherent hadopts hs
    have hresolve := resolve_eq_ok_iff.mpr hsel
    exact ⟨sel, hresolve, fun sel' h => hunique sel' sel s.id h hresolve⟩
  · intro hlength sel id hrow
    have hsubjects : d.registry.subjects.length ≤ source.length + 2 :=
      Document.length_subjects_parse_le source options
    have hfits : sel.Fits := fits_of_find? (by omega) (mem_rows_iff.mp hrow)
    rw [parse_display hfits]
    exact (hlisted sel id).mp hrow
  · intro read file text htext hsource
    refine ⟨Command.run_subjects_of_not_isNumbered htext hsource, fun hnumbered => ?_⟩
    obtain ⟨printed, hrun, hrows⟩ := Command.exists_run_subjects htext hsource hnumbered
    refine ⟨printed, hrun, hrows, fun shown hshown => ?_⟩
    obtain ⟨⟨sel, id⟩, hrow, hshows⟩ := Command.exists_of_forall₂ hrows hshown
    refine ⟨(sel, id), ⟨hrow, hshows⟩, ?_⟩
    rintro ⟨sel', id'⟩ ⟨hrow', hshows'⟩
    obtain rfl : sel' = sel := hshows'.selector_eq hshows
    have hid : id' = id :=
      Except.ok.inj (((hlisted sel' id').mp hrow').symm.trans ((hlisted sel' id).mp hrow))
    rw [hid]

/-- A sprite before the first input is no subject, and the sheets are listed before the inputs. -/
theorem resolve_iff_mem_rows_orphan :
    let source := "sprite a\ninput b\n  sprite\nsheet\ninput c\n  sprite d".toList
    let d := Document.parse source
    let text := "sprite a\r\ninput b\r\n  sprite\r\nsheet\r\ninput c\r\n  sprite d".toList
    let read : ReadFile := fun _ => .ok (Utf8.encode text)
    (sprite 1 0, 4) ∈ rows d.registry ∧ (sprite 1 0).Fits ∧
      (∀ sel : Selector, sel.resolve d = .ok 4 ↔ sel = sprite 1 0) ∧
      source.length < maxWord64 ∧ parse (sprite 1 0).display = .ok (sprite 1 0) ∧
      (parse (sprite 1 0).display).bind (·.resolve d) = .ok 4 ∧
      Command.loadText read ['f'] = .ok text ∧ (LineBreak.detect text).normalize text = source ∧
      d.registry.IsNumbered ∧
      ∃ printed, (Command.subjects ['f']).run read {} = .ok (Command.prints printed.flatten) ∧
        Forall₂ (Command.IsRow d) (rows d.registry) printed ∧
        (∀ shown ∈ printed, ∃! row, row ∈ rows d.registry ∧ Command.IsRow d row shown) ∧
        printed.flatten = ("sheet:0\tline 4\n" ++ "input:0\tline 2\tsprite\tb\n" ++
          "sprite:0.0\tline 3\tsprite\n" ++ "input:1\tline 5\tsprite\tc\n" ++
          "sprite:1.0\tline 6\td\n").toList := by
  intro source d text read
  have hresolve : (sprite 1 0).resolve d = .ok 4 := rfl
  have hfits : (sprite 1 0).Fits := by constructor <;> decide
  have hlength : source.length < maxWord64 := by decide
  have hread : Command.loadText read ['f'] = .ok text := by rfl
  have htext : (LineBreak.detect text).normalize text = source := by decide
  have hnumbered : d.registry.IsNumbered := by decide
  obtain ⟨⟨-, hlisted⟩, -, hunique, hparse, hreads, hcommand⟩ := resolve_iff_mem_rows source {}
  have hrow := (hlisted (sprite 1 0) 4).mpr hresolve
  obtain ⟨printed, hrun, hrows, hshown⟩ := (hcommand read ['f'] text hread htext).2 hnumbered
  refine ⟨hrow, hfits, fun sel => ⟨fun h => hunique _ _ 4 h hresolve, ?_⟩, hlength, hparse _ hfits,
    hreads hlength _ _ hrow, hread, htext, hnumbered, printed, hrun, hrows, hshown, ?_⟩
  · rintro rfl
    exact hresolve
  · have hprints : (Command.subjects ['f']).run read {} =
        .ok (Command.prints ("sheet:0\tline 4\n" ++ "input:0\tline 2\tsprite\tb\n" ++
          "sprite:0.0\tline 3\tsprite\n" ++ "input:1\tline 5\tsprite\tc\n" ++
          "sprite:1.0\tline 6\td\n").toList) := by rfl
    exact congrArg Answer.stdout (Except.ok.inj (hrun.symm.trans hprints))

end Selector
end SpriteConfig
