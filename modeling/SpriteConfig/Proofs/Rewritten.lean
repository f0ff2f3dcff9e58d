import SpriteConfig.Proofs.Reparse
/-!
# Lines that are written anew

When the parameters of a definition line are written anew, its level and its definition stay and its
text is put together again. What is read from the new text is that very line, with the new
parameters and the old comment. A line that is made of its parts is read from its text as well.
-/
namespace SpriteConfig

theorem readSource_of_one_line {t : Text} (h : '\n' ∉ t) : readSource t = [Line.parse 0 t] := by
  have hsplit : Text.split '\n' t = [t] := LineBreak.split_free (LineBreak.free_lf.mpr h)
  rw [readSource, hsplit]
  rfl

namespace Line

variable {l l' : Line} {values : List Text} {comment : Option Text}

/-- Whether a line is another one with other parameters and with a comment, and is read from its own
text. -/
structure Rewritten (l l' : Line) (values : List Text) (comment : Option Text) : Prop where
  parameters_eq : l'.parameters = .ok values
  afterDefinition_eq : l'.afterDefinition = .ok (Parameters.format values, comment)
  indent_eq : l'.indent = l.indent
  definition_eq : l'.definition = l.definition
  text_eq : l'.text = l.indent ++ l.definition ++ tail values comment
  readSource_eq : readSource l'.text = [l']

theorem Settled.readSource_eq (h : l.Settled) (hd : l.isDefinition = true) (hlf : '\n' ∉ l.text) :
    readSource l.text = [l] := by
  rw [readSource_of_one_line hlf, ← (h 0).eq hd]

theorem Settled.exists_rewritten (hs : l.Settled) (hshaped : l.Shaped) (hd : l.isDefinition = true)
    (hlf : '\n' ∉ l.text) (hvalues : ∀ v ∈ values, '\n' ∉ v) :
    ∃ before comment l', l.afterDefinition = .ok (before, comment) ∧
      l.setParameters values = .ok l' ∧ l.Rewritten l' values comment := by
  obtain ⟨indent, rest, hr⟩ := hshaped hd
  have hset := hr.setParameters_eq hd values
  have hcomment : ∀ k, (Parameters.splitComment (Text.trimStart rest)).2 = some k →
      ∃ later, k = '#' :: later := fun k hk => head_of_splitComment hk
  have hr' := hr.withParameters values (Parameters.splitComment (Text.trimStart rest)).2
  have hlf' := hshaped.not_mem_setParameters hset rfl rfl hlf hvalues
  refine ⟨_, _, _, hr.afterDefinition_eq hd, hset, hr'.parameters_eq hd hcomment,
    hr'.afterDefinition_tail hd hcomment, hr'.indent_eq.trans hr.indent_eq.symm, rfl, ?_,
    (hs.setParameters hshaped hset).readSource_eq hd hlf'⟩
  rw [hr.indent_eq]
  exact hr'.text_eq

theorem readSource_make {indent name : Text} (hi : indent.IsIndentation) (hn : name.IsToken)
    (hvalues : ∀ v ∈ values, '\n' ∉ v) :
    readSource (make indent name values).text = [make indent name values] := by
  have hd : (make indent name values).isDefinition = true := isDefinition_make hn.ne_nil values
  have hlf := not_mem_make hi rfl rfl hn.one_line hvalues
  exact (settled_make hi hn.toIsWord values).readSource_eq hd hlf

/-- A definition of any text that is given other parameters has these, its old comment and its old
indentation, and is what is read from its new text; so is a line that is made of an indentation, a
word and parameters. -/
theorem setParameters_reads_back :
    (∀ source : Text, ∀ l ∈ readSource source, l.isDefinition = true →
      ∀ values : List Text, (∀ v ∈ values, '\n' ∉ v) →
        ∃ before comment l', l.afterDefinition = .ok (before, comment) ∧
          l.setParameters values = .ok l' ∧ l.Rewritten l' values comment) ∧
      ∀ indent name : Text, indent.IsIndentation → name.IsToken →
        ∀ values : List Text, (∀ v ∈ values, '\n' ∉ v) →
          readSource (make indent name values).text = [make indent name values] ∧
            (make indent name values).parameters = .ok values := by
  constructor
  · intro source l hl hd values hvalues
    obtain ⟨hs, hlf⟩ := settled_of_mem_readSource hl
    exact hs.exists_rewritten (shaped_of_mem_readLines hl) hd hlf hvalues
  · intro indent name hi hn values hvalues
    exact ⟨readSource_make hi hn hvalues, parameters_make hi hn.ne_nil values⟩

/-- A definition with a quote in it, a quote that is not closed and a comment that looks like
parameters. -/
theorem setParameters_reads_back_quotes :
    let source := "\tta\"g  'x # y' z#  # old 'note".toList
    let l := Line.parse 0 source
    let values := ["a b".toList, "# c".toList]
    let l' : Line := ⟨"\tta\"g \"a b\" \"# c\" # old 'note".toList, 1, "ta\"g".toList⟩
    l ∈ readSource source ∧ l.isDefinition = true ∧ (∀ v ∈ values, '\n' ∉ v) ∧
      l.setParameters values = .ok l' ∧ l.Rewritten l' values (some "# old 'note".toList) ∧
      Text.IsIndentation "\t".toList ∧ Text.IsToken "ta\"g".toList ∧
      readSource (make "\t".toList "ta\"g".toList values).text =
        [make "\t".toList "ta\"g".toList values] := by
  intro source l values l'
  have hl : l ∈ readSource source := .head _
  have hd : l.isDefinition = true := by decide
  have hvalues : ∀ v ∈ values, '\n' ∉ v := by decide
  have hi : Text.IsIndentation "\t".toList := by decide
  have hn : Text.IsToken "ta\"g".toList := ⟨by decide, by decide⟩
  obtain ⟨before, comment, m, hafter, hset, hm⟩ :=
    setParameters_reads_back.1 source l hl hd values hvalues
  have hset' : l.setParameters values = .ok l' := by decide
  have hafter' : l.afterDefinition = .ok ("'x # y' z#".toList, some "# old 'note".toList) := by decide
  obtain rfl : m = l' := Except.ok.inj (hset.symm.trans hset')
  obtain ⟨-, rfl⟩ := Prod.mk.inj (Except.ok.inj (hafter.symm.trans hafter'))
  exact ⟨hl, hd, hvalues, hset', hm, hi, hn,
    (setParameters_reads_back.2 _ _ hi hn values hvalues).1⟩

end Line
end SpriteConfig
