import SpriteConfig.Proofs.Answer
import SpriteConfig.Proofs.Reparse
import SpriteConfig.Proofs.Rows
import SpriteConfig.Proofs.Success
/-!
# Answers that are true

A deletion and a change of layout answer whether they have changed anything, and another text is
written of the document if they have. Lines that go leave fewer rows. A line of a new layout that
comes for the line of the old one may leave as many, but it is another line.
-/
namespace SpriteConfig

/-- Whether the answer of an edit says if anything has changed: it deletes something, or changes a
layout. -/
def Edit.ReportsChange : Edit → Prop
  | .deleteProperty _ _ | .deleteBlock _ | .deleteSubject _ | .setLayout _ _ => True
  | .writeProperty _ _ _ | .writeSubject _ _ | .renameSprite _ _ => False

theorem Layout.initialParameters_one_line (o : Options) (new : Layout) :
    ∀ v ∈ new.initialParameters o, '\n' ∉ v := by
  cases new <;> simp [initialParameters, Text.not_mem_ofNat]

namespace Line

variable {l l' : Line}

theorem Shaped.text_ne_nil (hs : l.Shaped) (hd : l.isDefinition = true) : l.text ≠ [] := by
  obtain ⟨indent, rest, hr⟩ := hs hd
  intro ht
  have hparts := hr.text_eq.symm.trans ht
  simp only [List.append_eq_nil_iff] at hparts
  simp [isDefinition, hparts.1.2] at hd

theorem Settled.definition_eq (h : l.Settled) (h' : l'.Settled) (ht : l.text = l'.text) :
    l.definition = l'.definition := by
  rw [(h 0).definition_eq, ht, (h' 0).definition_eq]

end Line

namespace Document

variable {d d' written : Document} {s : SubjectId} {h : Handle} {n : Nat} {l : Line}

theorem Valid.rows_eq (hv : d.Valid) (hl : d.lines[n]? = some l) (hd : l.isDefinition = true)
    (hsource : d'.source = d.source) : rows d'.lines = rows d.lines :=
  rows_eq_of_writeSource_eq (List.mem_of_getElem? hl) ((hv.shaped_of_getElem? hl).text_ne_nil hd)
    hsource

theorem length_rows_deleteLines_lt {start stop : Nat} (hlt : start < stop)
    (hdelete : d.deleteLines start stop = .ok d') :
    (rows d'.lines).length < (rows d.lines).length := by
  obtain ⟨hstop, hlines⟩ := exists_of_deleteLines hdelete
  rw [hlines]
  exact length_rows_delete_lt hlt hstop

theorem length_rows_deleteBlock_le {answer : Bool} (hdelete : d.deleteBlock s = .ok (d', answer)) :
    (rows d'.lines).length ≤ (rows d.lines).length := by
  rcases deleteBlock_cases hdelete with ⟨-, rfl⟩ | ⟨-, n, stop, -, hlt, hdelete⟩
  · exact Nat.le_refl _
  · exact (length_rows_deleteLines_lt hlt hdelete).le

theorem Valid.source_ne_of_deleteProperty (hv : d.Valid) {name : Text}
    (hdelete : d.deleteProperty s name = .ok (d', true)) : d'.source ≠ d.source := by
  obtain ⟨-, l, q, hfound, hdelete⟩ := (deleteProperty_cases hdelete).resolve_left nofun
  obtain ⟨hl, hd, -⟩ := getElem?_of_directLine? hfound
  have hlt := length_rows_deleteLines_lt (Nat.lt_succ_self q) hdelete
  exact fun hsource => hlt.ne (congrArg List.length (hv.rows_eq hl hd hsource))

theorem Valid.source_ne_of_line? (hv : d.Valid) (hn : d.registry.line? s = some n)
    (hlt : (rows d'.lines).length < (rows d.lines).length) : d'.source ≠ d.source := by
  obtain ⟨subject, l, -, hl, hname⟩ := hv.exists_line hn
  have hd := Line.isDefinition_of_eq_token hname
  exact fun hsource => hlt.ne (congrArg List.length (hv.rows_eq hl hd hsource))

theorem Valid.source_ne_of_deleteBlock (hv : d.Valid) (hdelete : d.deleteBlock s = .ok (d', true)) :
    d'.source ≠ d.source := by
  obtain ⟨-, n, stop, hn, hlt, hdelete⟩ := (deleteBlock_cases hdelete).resolve_left nofun
  exact hv.source_ne_of_line? hn (length_rows_deleteLines_lt hlt hdelete)

theorem Valid.source_ne_of_deleteSubject (hv : d.Valid)
    (hdelete : d.deleteSubject s = .ok (d', true)) : d'.source ≠ d.source := by
  obtain ⟨-, n, cleared, isCleared, hn, hclear, hdelete⟩ :=
    (deleteSubject_cases hdelete).resolve_left nofun
  have hlt := length_rows_deleteLines_lt (Nat.lt_succ_self n) hdelete
  exact hv.source_ne_of_line? hn (hlt.trans_le (length_rows_deleteBlock_le hclear))

section Layouts

variable {new : Layout}

theorem LayoutWriting.rows_ne (hwriting : d.LayoutWriting h new written true) :
    rows written.lines ≠ rows d.lines := by
  generalize hanswer : true = answer at hwriting
  cases hwriting with
  | kept => cases hanswer
  | @rewritten n l l' hl hset =>
    have ht : l.text ≠ l'.text := by simpa using hanswer.symm
    exact rows_set_ne hl ht.symm
  | @inserted indent written hindent hlines =>
    intro hrows
    have hlen := (perm_rows_insert h.next (Line.make indent new.token
      (new.initialParameters d.options)) d.lines).length_eq
    rw [← hlines, hrows, List.length_append, Line.length_rows] at hlen
    omega

/-- When the line of another layout is deleted from a document with a new layout, other rows are
left than without the new one: the line that goes is not the one that has come. -/
theorem LayoutWriting.rows_ne_of_deleted {answer : Bool} (hv : d.Valid) (hs : d.Settled)
    (hh : h.Inside d) (hwriting : d.LayoutWriting h new written answer) {q : Nat} {old : Line}
    (hold : written.lines[q]? = some old) (hne : old.definition ≠ new.token)
    (hdelete : written.deleteLines q (q + 1) = .ok d') : rows d'.lines ≠ rows d.lines := by
  intro hrows
  have hlt := length_rows_deleteLines_lt (Nat.lt_succ_self q) hdelete
  rw [hrows] at hlt
  cases hwriting with
  | kept => exact Nat.lt_irrefl _ hlt
  | @rewritten n l l' hl hset =>
    have hle := (hv.shaped_of_getElem? hl).length_rows_setParameters_le hset
      (new.initialParameters_one_line d.options)
    exact Nat.not_lt_of_le (length_rows_set_le hl hle) hlt
  | @inserted indent written hindent hlines =>
    obtain ⟨indent', hindent', hi⟩ := hv.exists_indentBelow hh
    obtain rfl := Except.ok.inj (hindent.symm.trans hindent')
    have hrow := Line.not_mem_make hi rfl rfl new.isToken_token.one_line
      (new.initialParameters_one_line d.options)
    have hsettled := Line.settled_make hi new.isToken_token.toIsWord
      (new.initialParameters d.options)
    have hsettled' : old.Settled := by
      have hmem := List.mem_of_getElem? hold
      rw [hlines, List.mem_append, List.mem_cons] at hmem
      rcases hmem with hmem | rfl | hmem
      · exact hs old (List.mem_of_mem_take hmem)
      · exact hsettled
      · exact hs old (List.mem_of_mem_drop hmem)
    rw [(exists_of_deleteLines hdelete).2] at hrows
    have ht := text_eq_of_rows_eq hrow hlines hold hrows
    exact hne ((hsettled'.definition_eq hsettled ht).trans (Line.make_definition _ _ _))

theorem Valid.source_ne_of_setLayout (hv : d.Valid) (hs : d.Settled)
    (hcoherent : d.registry.Coherent d.lines) (hset : d.setLayout s new = .ok (d', true)) :
    d'.source ≠ d.source := by
  obtain ⟨input, current, written, isWritten, hfind, hkind, hne, hwriting, hcases⟩ :=
    (setLayout_cases hset).resolve_left nofun
  obtain ⟨hmem, -⟩ := Registry.mem_of_find? hfind
  obtain ⟨n, hn⟩ := hcoherent.exists_handle_eq hmem (by simp [hkind])
  obtain ⟨own, hown, hd⟩ := defined_of_coherent hcoherent (Registry.handle?_of_find? hfind) n hn
  intro hsource
  have hrows := hv.rows_eq hown hd hsource
  rcases hcases with ⟨rfl, rfl⟩ | ⟨isRemoved, hremove, hanswer⟩
  · exact hwriting.rows_ne hrows
  · rcases deleteProperty_cases hremove with ⟨rfl, rfl⟩ | ⟨-, old, q, hfound, hdelete⟩
    · rw [Bool.or_false] at hanswer
      subst hanswer
      exact hwriting.rows_ne hrows
    · obtain ⟨hold, -, hold'⟩ := getElem?_of_directLine? hfound
      refine hwriting.rows_ne_of_deleted hv hs (hv.inside hmem) hold ?_ hdelete hrows
      exact fun heq => hne (Layout.token_inj.mp (hold'.symm.trans heq))

end Layouts

/-- An edit that answers yes writes another text, if it is one that answers whether it did. -/
theorem Valid.source_ne_of_perform (hv : d.Valid) (hs : d.Settled)
    (hcoherent : d.registry.Coherent d.lines) {e : Edit} (he : e.ReportsChange)
    (hperform : d.perform e = .ok (d', true)) : d'.source ≠ d.source := by
  cases e with
  | deleteProperty s name => exact hv.source_ne_of_deleteProperty hperform
  | deleteBlock s => exact hv.source_ne_of_deleteBlock hperform
  | deleteSubject s => exact hv.source_ne_of_deleteSubject hperform
  | setLayout input new => exact hv.source_ne_of_setLayout hs hcoherent hperform
  | writeProperty | writeSubject | renameSprite => exact he.elim

/-- After any edits that write words as definitions, a deletion or a change of layout answers yes
exactly if the text of the document changes, whatever it is asked for. -/
theorem performAll_answers_truly (source : Text) {options : Options} (ho : options.Indents)
    {es : List Edit} (hes : ∀ e ∈ es, e.Writes Text.IsWord fun _ => True) :
    ∃ d, (parse source options).performAll es = .ok d ∧
      ∀ e : Edit, e.ReportsChange →
        ∃ d' answer, d.perform e = .ok (d', answer) ∧ (answer = true ↔ d'.source ≠ d.source) := by
  have hv := valid_parse source ho
  obtain ⟨cs, d, hperform, hfollows, hw⟩ :=
    hv.exists_performAll (fun l => l.isToken_token.toIsWord) (fun _ => trivial) hes
  have hs : d.Settled := (settled_parse source options).follows hv hw hfollows
  have hcoherent := coherent_of_performAll (Registry.coherent_ofLines (readSource source)) hperform
  have hv' := hv.follows hfollows
  refine ⟨d, hperform, fun e he => ?_⟩
  obtain ⟨-, d', answer, hanswer, -, -⟩ := hv'.exists_perform e
  refine ⟨d', answer, hanswer, ?_⟩
  cases answer with
  | false => simp [eq_of_perform hanswer]
  | true => simpa using hv'.source_ne_of_perform hs hcoherent he hanswer

/-- The grid stands there with its parameters already, so that only the old layout goes; a block
without lines is not cleared. The tag holds a line feed, so its line stands in two rows. -/
theorem performAll_answers_truly_two_rows :
    let source := "input a\n  atlas\n  grid 16 16\ninput b".toList
    let es := [Edit.writeProperty 1 "tag".toList ["c\nd".toList]]
    ({} : Options).Indents ∧ (∀ e ∈ es, e.Writes Text.IsWord fun _ => True) ∧
      ∃ d, (parse source).performAll es = .ok d ∧
        (Edit.setLayout 1 .grid).ReportsChange ∧
        (∃ d', d.perform (.setLayout 1 .grid) = .ok (d', true) ∧ d'.source ≠ d.source) ∧
        (Edit.deleteBlock 2).ReportsChange ∧
        ∃ d', d.perform (.deleteBlock 2) = .ok (d', false) ∧ d'.source = d.source := by
  intro source es
  have hes : ∀ e ∈ es, e.Writes Text.IsWord fun _ => True := by
    simp only [es, List.forall_mem_singleton]
    exact ⟨by decide, fun _ _ => trivial⟩
  obtain ⟨d, hd, htrue⟩ := performAll_answers_truly source Options.indents_default hes
  have hlayout : ((parse source).performAll es >>= fun d =>
      Prod.snd <$> d.perform (.setLayout 1 .grid)) = .ok true := by decide
  have hblock : ((parse source).performAll es >>= fun d =>
      Prod.snd <$> d.perform (.deleteBlock 2)) = .ok false := by decide
  rw [hd, Checked.ok_bind] at hlayout hblock
  obtain ⟨⟨d₁, _⟩, hset, rfl⟩ := Checked.map_eq_ok.mp hlayout
  obtain ⟨⟨d₂, _⟩, hclear, rfl⟩ := Checked.map_eq_ok.mp hblock
  obtain ⟨d₁', answer₁, hset', hiff₁⟩ := htrue (.setLayout 1 .grid) trivial
  obtain ⟨rfl, rfl⟩ := Prod.mk.inj (Except.ok.inj (hset.symm.trans hset'))
  obtain ⟨d₂', answer₂, hclear', hiff₂⟩ := htrue (.deleteBlock 2) trivial
  obtain ⟨rfl, rfl⟩ := Prod.mk.inj (Except.ok.inj (hclear.symm.trans hclear'))
  refine ⟨Options.indents_default, hes, d, hd, trivial, ⟨d₁, hset, hiff₁.mp rfl⟩, trivial, d₂,
    hclear, ?_⟩
  exact Decidable.not_not.mp fun hne => Bool.false_ne_true (hiff₂.mpr hne)

end Document
end SpriteConfig
