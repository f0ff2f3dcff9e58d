import SpriteConfig.Proofs.Unedited
/-!
# Edits of one line

Setting or removing a property, and writing the line of a subject, change one line of a document. So
the difference to the buffer is one line for one line at most, even where equal lines stand side by
side, and the patch leaves the text before it and after it alone. What else may come or go is the
line break at one side of the line.
-/
namespace SpriteConfig

namespace LineBreak

def begun (e : LineBreak) (ls : List Text) : Text := ls.flatMap (e.text ++ ·)

/-- Whether a text consists of some lines: with line breaks between them and nothing else, or with
one more line break after the last line or before the first one. -/
def Spells (e : LineBreak) (ls : List Text) (t : Text) : Prop :=
  t = Text.join e.text ls ∨ t = e.ended ls ∨ t = e.begun ls

theorem join_append_begun (e : LineBreak) {ls : List Text} (hl : ls ≠ []) (ms : List Text) :
    Text.join e.text (ls ++ ms) = Text.join e.text ls ++ e.begun ms := by
  induction ms generalizing ls with
  | nil => simp [begun]
  | cons m ms ih =>
    have happend : ls ++ m :: ms = (ls ++ [m]) ++ ms := by simp
    rw [happend, ih (List.append_ne_nil_of_left_ne_nil hl [m]), join_append e hl (by simp)]
    simp [begun, Text.join]

theorem spells_join (e : LineBreak) (ls : List Text) : e.Spells ls (Text.join e.text ls) := .inl rfl

theorem spells_ended (e : LineBreak) (ls : List Text) : e.Spells ls (e.ended ls) := .inr (.inl rfl)

theorem spells_begun (e : LineBreak) (ls : List Text) : e.Spells ls (e.begun ls) := .inr (.inr rfl)

theorem exists_spells (e : LineBreak) (before old new after : List Text) :
    ∃ a m n b, Text.join e.text (before ++ old ++ after) = a ++ m ++ b ∧
      Text.join e.text (before ++ new ++ after) = a ++ n ++ b ∧ e.Spells before a ∧
      e.Spells old m ∧ e.Spells new n ∧ e.Spells after b := by
  by_cases hafter : after = []
  · subst hafter
    by_cases hbefore : before = []
    · subst hbefore
      refine ⟨[], Text.join e.text old, Text.join e.text new, [], ?_, ?_, e.spells_join [],
        e.spells_join old, e.spells_join new, e.spells_join []⟩
      · simp
      · simp
    · refine ⟨Text.join e.text before, e.begun old, e.begun new, [], ?_, ?_, e.spells_join before,
        e.spells_begun old, e.spells_begun new, e.spells_join []⟩
      · rw [List.append_nil, List.append_nil, join_append_begun e hbefore]
      · rw [List.append_nil, List.append_nil, join_append_begun e hbefore]
  · refine ⟨e.ended before, e.ended old, e.ended new, Text.join e.text after, ?_, ?_,
      e.spells_ended before, e.spells_ended old, e.spells_ended new, e.spells_join after⟩
    · rw [join_append_ended e _ hafter, ended_append]
    · rw [join_append_ended e _ hafter, ended_append]

end LineBreak

namespace LineRange

/-- Whether a range replaces at most one line by at most one line. -/
structure OfOneLine (r : LineRange) : Prop where
  replaced_le : r.replacedLength ≤ 1
  lines_le : r.lines.length ≤ 1

variable {r r' : LineRange} {current proposed : List Text}

theorem OfOneLine.differing? (hone : r'.OfOneLine) (h' : r'.Turns current proposed)
    (h : LineRange.differing? current proposed = some r) : r.OfOneLine := by
  obtain ⟨hreplaced, hlines⟩ := h'.lengths_le h
  exact ⟨Nat.le_trans hreplaced hone.replaced_le, Nat.le_trans hlines hone.lines_le⟩

theorem exists_turns_self (lines : List Text) :
    ∃ r : LineRange, r.Turns lines lines ∧ r.OfOneLine := by
  refine ⟨⟨0, 0, []⟩, ⟨Nat.le_refl _, Nat.zero_le _, rfl⟩, ?_, Nat.zero_le _⟩
  exact Nat.zero_le _

theorem OfOneLine.exists_turns_empty (hone : r.OfOneLine) (h : r.Turns current []) :
    ∃ r' : LineRange, r'.Turns current [[]] ∧ r'.OfOneLine := by
  have hlength := h.length_eq
  have hreplaced := hone.replaced_le
  rw [replacedLength] at hreplaced
  refine ⟨⟨0, current.length, [[]]⟩, ⟨Nat.zero_le _, Nat.le_refl _, ?_⟩, ?_, Nat.le_refl _⟩
  · simp [replaceIn]
  · show current.length - 0 ≤ 1
    simp only [List.length_nil] at hlength
    omega

end LineRange

/-- Whether a change concerns at most one line. -/
def Change.OfOneLine : Change → Prop
  | .delete start stop => stop = start + 1
  | .insert _ _ _ _ | .rewrite _ _ | .register _ _ => True

/-- Whether an edit is meant for one line: for a property of a subject, or for its own line. -/
def Edit.OfOneLine : Edit → Prop
  | .writeProperty _ _ _ | .deleteProperty _ _ | .writeSubject _ _ | .renameSprite _ _ => True
  | .deleteBlock _ | .deleteSubject _ | .setLayout _ _ => False

namespace Document

variable {d d' : Document} {ed : Edit} {cs : List Change}

theorem ofOneLine_changesOf (hone : ed.OfOneLine) (h : d.changesOf ed = .ok cs) :
    cs = [] ∨ ∃ c : Change, cs = [c] ∧ c.OfOneLine := by
  cases ed with
  | writeProperty s name values =>
    rw [changesOf] at h
    split at h
    · exact .inl (Except.ok.inj h).symm
    · obtain ⟨c, hc, h⟩ := Checked.bind_eq_ok.mp h
      refine .inr ⟨c, (Except.ok.inj h).symm, ?_⟩
      rcases eq_of_writingOf hc with ⟨indent, rfl⟩ | ⟨l, n, -, rfl⟩
      · trivial
      · trivial
  | deleteProperty s name =>
    obtain ⟨found, -, h⟩ := Checked.bind_eq_ok.mp h
    cases found with
    | none => exact .inl (Except.ok.inj h).symm
    | some p => exact .inr ⟨_, (Except.ok.inj h).symm, rfl⟩
  | writeSubject s values =>
    rw [changesOf] at h
    split at h
    · exact .inl (Except.ok.inj h).symm
    · exact .inr ⟨_, (Except.ok.inj h).symm, trivial⟩
  | renameSprite s name =>
    rw [changesOf] at h
    split at h
    · exact .inl (Except.ok.inj h).symm
    · exact .inr ⟨_, (Except.ok.inj h).symm, trivial⟩
  | deleteBlock => exact hone.elim
  | deleteSubject => exact hone.elim
  | setLayout => exact hone.elim

theorem Step.exists_turns {c : Change} (hstep : d.Step c d') (hone : c.OfOneLine) :
    ∃ r : LineRange, r.Turns (d.lines.map Line.text) (d'.lines.map Line.text) ∧ r.OfOneLine := by
  cases hstep with
  | @insert h indent name values hle =>
    refine ⟨⟨h.next, h.next, [(Line.make indent name values).text]⟩, ⟨Nat.le_refl _, ?_, ?_⟩, ?_,
      Nat.le_refl _⟩
    · rwa [List.length_map]
    · simp [LineRange.replaceIn, List.map_take, List.map_drop]
    · simp [LineRange.replacedLength]
  | @rewrite n values l l' hl hset =>
    have hlt := (List.getElem?_eq_some_iff.mp hl).1
    refine ⟨⟨n, n + 1, [l'.text]⟩, ⟨Nat.le_succ n, ?_, ?_⟩, ?_, Nat.le_refl _⟩
    · rwa [List.length_map]
    · simp [LineRange.replaceIn, List.set_eq_take_append_cons_drop, hlt]
    · simp [LineRange.replacedLength]
  | @delete start stop hle hstop =>
    obtain rfl : stop = start + 1 := hone
    refine ⟨⟨start, start + 1, []⟩, ⟨hle, ?_, ?_⟩, ?_, Nat.zero_le _⟩
    · rwa [List.length_map]
    · simp [LineRange.replaceIn, List.map_take, List.map_drop]
    · simp [LineRange.replacedLength]
  | register hlt => exact LineRange.exists_turns_self _

theorem Follows.exists_turns (h : d.Follows cs d')
    (hone : cs = [] ∨ ∃ c : Change, cs = [c] ∧ c.OfOneLine) :
    ∃ r : LineRange, r.Turns (d.lines.map Line.text) (d'.lines.map Line.text) ∧ r.OfOneLine := by
  rcases hone with rfl | ⟨c, rfl, hc⟩
  · obtain rfl := h.eq_of_nil
    exact LineRange.exists_turns_self _
  · exact h.step_of_single.2.exists_turns hc

theorem exists_turns_source {r : LineRange} {lines : List Text}
    (h : r.Turns lines (d.lines.map Line.text)) (hone : r.OfOneLine) (hlf : d.Lacks '\n') :
    ∃ r' : LineRange, r'.Turns lines (LineBreak.lf.split d.source) ∧ r'.OfOneLine := by
  by_cases hne : d.lines = []
  · have hsource : LineBreak.lf.split d.source = [[]] := by
      rw [source, hne]
      rfl
    rw [hsource]
    rw [hne] at h
    exact hone.exists_turns_empty h
  · have hsplit : LineBreak.lf.split d.source = d.lines.map Line.text := split_writeSource hne hlf
    exact ⟨r, hsplit ▸ h, hone⟩

/-- An edit of one line that writes no line breaks changes one line of what is written of the
document, and brings no line breaks of its own. -/
theorem Valid.exists_turns_perform (hv : d.Valid) (hlf : d.Lacks '\n') (hcr : d.Lacks '\r')
    (hone : ed.OfOneLine)
    (hw : ed.Writes (fun t => '\n' ∉ t ∧ '\r' ∉ t) fun t => '\n' ∉ t ∧ '\r' ∉ t) :
    ∃ d' answer r, d.perform ed = .ok (d', answer) ∧ '\r' ∉ d'.source ∧
      LineRange.Turns r (d.lines.map Line.text) (LineBreak.lf.split d'.source) ∧ r.OfOneLine := by
  obtain ⟨cs, d', answer, hperform, hcs, hfollows⟩ := hv.exists_perform ed
  have hwrites : ∀ c ∈ cs, c.Writes (fun t => '\n' ∉ t ∧ '\r' ∉ t) fun t => '\n' ∉ t ∧ '\r' ∉ t :=
    hw.changesOf (fun l => by cases l <;> decide)
      (fun n => ⟨Text.not_mem_ofNat rfl n, Text.not_mem_ofNat rfl n⟩) hcs
  have hlf' : d'.Lacks '\n' := hlf.follows rfl rfl hv
    (fun c hc => (hwrites c hc).imp (fun _ h => h.1) fun _ h => h.1) hfollows
  have hcr' : d'.Lacks '\r' := hcr.follows rfl rfl hv
    (fun c hc => (hwrites c hc).imp (fun _ h => h.2) fun _ h => h.2) hfollows
  obtain ⟨r, hturns, hr⟩ := hfollows.exists_turns (ofOneLine_changesOf hone hcs)
  obtain ⟨r', hturns', hr'⟩ := exists_turns_source hturns hr hlf'
  exact ⟨d', answer, r', hperform, hcr'.not_mem_source (by decide), hturns', hr'⟩

end Document

namespace Session

theorem lines_ofHost {text : Text} {e : LineBreak} (he : e.Uniform text) (options : Options) :
    (ofHost (Buffer.ofText text) options).document.lines.map Line.text =
      (LineBreak.detect text).split text := by
  have hread : (LineBreak.detect text).split text =
      LineBreak.lf.split ((LineBreak.detect text).normalize text) :=
    LineBreak.split_eq_split_normalize_iff.mpr ⟨.inl rfl, fun l hl => (he.detect l hl).1⟩
  rw [hread]
  exact readLines_map_text 0 _

/-- An edit of one line reaches the buffer as such: its lines and those of the document differ by
one line for one line at most, and apart from a line break that comes or goes with the line all text
before and after it is kept. -/
theorem edit_replaces_one_line {text : Text} {e : LineBreak} (he : e.Uniform text)
    {options : Options} (ho : options.Indents) {ed : Edit} (hone : ed.OfOneLine)
    (hw : ed.Writes (fun t => '\n' ∉ t ∧ '\r' ∉ t) fun t => '\n' ∉ t ∧ '\r' ∉ t) :
    let b := Buffer.ofText text
    let s := ofHost b options
    let lines := b.lineBreak.split text
    ∃ d answer c patch, s.document.perform ed = .ok (d, answer) ∧
      s.edit b (·.perform ed) = .ok (c, answer) ∧ c.session.document = d ∧
      c.outcome = .ok patch ∧
      let proposed := LineBreak.lf.split d.source
      b.lineBreak.split c.host.text = proposed ∧
      (LineRange.differing? lines proposed = none → c.host = b) ∧
      ∀ r, LineRange.differing? lines proposed = some r →
        r.replacedLength ≤ 1 ∧ r.lines.length ≤ 1 ∧
        ∃ before old new after, text = before ++ old ++ after ∧
          c.host.text = before ++ new ++ after ∧
          b.lineBreak.Spells (lines.take r.first) before ∧
          b.lineBreak.Spells ((lines.take r.last).drop r.first) old ∧
          b.lineBreak.Spells r.lines new ∧ b.lineBreak.Spells (lines.drop r.last) after := by
  intro b s lines
  have hv : s.document.Valid := Document.valid_parse _ ho
  have hcr : s.document.Lacks '\r' := Document.lacks_of_not_mem he.not_mem_normalize _
  obtain ⟨d, answer, r', hperform, hreturn, hturns', hone'⟩ :=
    hv.exists_turns_perform (Document.lacks_parse _ _) hcr hone hw
  rw [lines_ofHost he] at hturns'
  obtain ⟨b', patch, hcommit, htext⟩ := exists_commit { s with document := d } b
  refine ⟨d, answer, _, patch, hperform, edit_of_commit hperform hcommit, rfl, rfl, ?_, ?_, ?_⟩
  · rw [htext]
    exact LineBreak.split_restore_of_cr fun _ => hreturn
  · intro hnone
    have hsame : (Host.lineBreak b).split (Host.text b) = LineBreak.lf.split d.source :=
      LineRange.differing?_eq_none_iff.mp hnone
    have hcommit' := commit_of_eq (s := { s with document := d }) hsame
    exact congrArg Committed.host (Except.ok.inj (hcommit.symm.trans hcommit'))
  · intro r hr
    have hone := hone'.differing? hturns' hr
    have hturns := LineRange.turns_differing? hr
    refine ⟨hone.replaced_le, hone.lines_le, ?_⟩
    obtain ⟨before, old, new, after, hold, hnew, hspells⟩ :=
      b.lineBreak.exists_spells (lines.take r.first) ((lines.take r.last).drop r.first) r.lines
        (lines.drop r.last)
    refine ⟨before, old, new, after, ?_, ?_, hspells⟩
    · rw [← hold, ← hturns.eq_append]
      exact (LineBreak.join_split _ text).symm
    · rw [← hnew, htext]
      exact congrArg (Text.join b.lineBreak.text) hturns.replaceIn_eq.symm

/-- Of two equal lines the first one is deleted, and the buffer loses the last one with the line
break before it. -/
theorem edit_replaces_one_line_equal_lines :
    let text := "input é\r\n  tag x\r\n  tag x".toList
    let ed := Edit.deleteProperty 1 "tag".toList
    let b := Buffer.ofText text
    let s := ofHost b {}
    LineBreak.crlf.Uniform text ∧ ({} : Options).Indents ∧ ed.OfOneLine ∧
      ed.Writes (fun t => '\n' ∉ t ∧ '\r' ∉ t) (fun t => '\n' ∉ t ∧ '\r' ∉ t) ∧
      ∃ d answer c, s.document.perform ed = .ok (d, answer) ∧
        s.edit b (·.perform ed) = .ok (c, answer) ∧
        LineRange.differing? (b.lineBreak.split text) (LineBreak.lf.split d.source) =
          some ⟨2, 3, []⟩ ∧
        b.lineBreak.split c.host.text = ["input é".toList, "  tag x".toList] ∧
        ∃ before old new after, text = before ++ old ++ after ∧
          c.host.text = before ++ new ++ after ∧
          LineBreak.crlf.Spells ["input é".toList, "  tag x".toList] before ∧
          LineBreak.crlf.Spells ["  tag x".toList] old ∧ LineBreak.crlf.Spells [] new ∧
          LineBreak.crlf.Spells [] after := by
  intro text ed b s
  have he : LineBreak.crlf.Uniform text := by
    show ∀ l ∈ LineBreak.crlf.split text, '\n' ∉ l ∧ '\r' ∉ l
    decide
  have hone : ed.OfOneLine := trivial
  obtain ⟨d, answer, c, patch, hperform, hedit, -, -, hlines, -, hrange⟩ :=
    edit_replaces_one_line he Options.indents_default hone trivial
  have hsource : (s.document.perform ed).map (fun p => LineBreak.lf.split p.1.source) =
      .ok ["input é".toList, "  tag x".toList] := by
    rfl
  rw [hperform] at hsource
  have hsplit := Except.ok.inj hsource
  have hdiff : LineRange.differing? (b.lineBreak.split text) (LineBreak.lf.split d.source) =
      some ⟨2, 3, []⟩ := by
    rw [show LineBreak.lf.split d.source = _ from hsplit]
    decide
  exact ⟨he, Options.indents_default, hone, trivial, d, answer, c, hperform, hedit, hdiff,
    hlines.trans hsplit, (hrange _ hdiff).2.2⟩

end Session
end SpriteConfig
