import SpriteConfig.Proofs.Faithful
import SpriteConfig.Proofs.History
import SpriteConfig.Session.Basic
/-!
# Sessions that set properties

A commit always succeeds, and afterwards the buffer holds the lines of the document with its own
line breaks. So a new session for the buffer has the subjects and the properties of the old one.
-/
namespace SpriteConfig

theorem Buffer.exists_applyPatch {b : Buffer} {p : Patch} {before middle after : Text}
    (h : p.Cuts b.text b.lineBreak before middle after) :
    ∃ b', b.applyPatch p = .ok b' ∧ b'.text = before ++ p.newText ++ after := by
  refine ⟨_, applyPatch_of_extent h.extent_eq, ?_⟩
  rw [← Text.splice_append, ← h.text_eq]
  rfl

/-- Sets properties one after the other, each as an edit of its own, and answers for each whether
the host took it and the subject was known. -/
def Session.setAll {β : Type} [Host β] (s : Session) (host : β) :
    List PropertyWrite → Checked (Session × β × List (Except OutOfRange Bool))
  | [] => .ok (s, host, [])
  | w :: ws => do
    let (committed, answer) ← s.edit host fun d => d.writeProperty w.subject w.name w.values
    let (s, host, outcomes) ← committed.session.setAll committed.host ws
    return (s, host, committed.outcome.map (fun _ => answer) :: outcomes)

namespace Session

theorem commit_of_eq {β : Type} [Host β] {s : Session} {host : β}
    (h : (Host.lineBreak host).split (Host.text host) = LineBreak.lf.split s.document.source) :
    s.commit host = .ok ⟨{ s with synced := some s.document.source, debounce := s.debounce.clear },
      host, .ok none⟩ := by
  rw [commit]
  simp only [Patch.computeWith_of_eq h, Checked.ok_bind]
  rfl

theorem commit_of_computeWith {β : Type} [Host β] {s : Session} (host : β) {host' : β} {p : Patch}
    (hp : Patch.computeWith (Host.text host) (Host.lineBreak host) s.document.source =
      .ok (some p))
    (ha : Host.applyPatch host p = .ok host') :
    s.commit host = .ok ⟨{ s with synced := some s.document.source, debounce := s.debounce.clear },
      host', .ok (some p)⟩ := by
  rw [commit]
  simp only [hp, Checked.ok_bind, ha]
  rfl

theorem edit_of_commit {α β : Type} [Host β] {s : Session} {host : β}
    {change : Document → Checked (Document × α)} {d : Document} {answer : α} {c : Committed β}
    (hchange : change s.document = .ok (d, answer))
    (hcommit : { s with document := d }.commit host = .ok c) :
    s.edit host change = .ok (c, answer) := by
  rw [edit, hchange, Checked.ok_bind]
  dsimp only
  rw [hcommit]
  rfl

theorem patch_of_commit {s : Session} {b : Buffer} {c : Committed Buffer} (h : s.commit b = .ok c)
    {patch : Option Patch} (hpatch : c.outcome = .ok patch) :
    patch = none ∧ c.host = b ∨ ∃ p, patch = some p ∧ b.applyPatch p = .ok c.host := by
  obtain ⟨answer, -, h⟩ := Checked.bind_eq_ok.mp h
  cases answer with
  | none =>
    obtain rfl := Except.ok.inj h
    exact .inl ⟨(Except.ok.inj hpatch).symm, rfl⟩
  | some p =>
    dsimp only at h
    split at h
    · next host happly =>
      obtain rfl := Except.ok.inj h
      exact .inr ⟨p, (Except.ok.inj hpatch).symm, happly⟩
    · obtain rfl := Except.ok.inj h
      cases hpatch

theorem commitDue_of_isDue {β : Type} [Host β] {s : Session} {now : Nat}
    (h : s.debounce.isDue now = true) (host : β) :
    s.commitDue now host = { s with debounce := s.debounce.clear }.commit host := by
  rw [commitDue, Debounce.takeIfDue, if_pos h]

theorem commitDue_of_not_isDue {β : Type} [Host β] {s : Session} {now : Nat}
    (h : ¬ s.debounce.isDue now = true) (host : β) :
    s.commitDue now host = .ok ⟨s, host, .ok none⟩ := by
  rw [commitDue, Debounce.takeIfDue, if_neg h]

theorem exists_commit_of_differing {s : Session} {b : Buffer} {r : LineRange}
    (h : LineRange.differing? (b.lineBreak.split b.text) (LineBreak.lf.split s.document.source) =
      some r) :
    ∃ b' p, Patch.ofRange b.text b.lineBreak r = .ok p ∧ b.applyPatch p = .ok b' ∧
      s.commit b =
        .ok ⟨{ s with synced := some s.document.source, debounce := s.debounce.clear }, b',
          .ok (some p)⟩ ∧
      b'.text = b.lineBreak.restore s.document.source := by
  have hne : b.lineBreak.split b.text ≠ LineBreak.lf.split s.document.source := by
    intro hsame
    rw [LineRange.differing?_eq_none_iff.mpr hsame] at h
    cases h
  obtain ⟨p, before, middle, after, hp, hcuts, htext⟩ := Patch.exists_cuts_computeWith hne
  obtain ⟨b', happly, htext'⟩ := Buffer.exists_applyPatch hcuts
  exact ⟨b', p, (Patch.computeWith_eq_some_iff h).mp hp, happly,
    commit_of_computeWith b hp happly, htext'.trans htext⟩

theorem exists_commit_of_ne {s : Session} {b : Buffer}
    (h : b.lineBreak.split b.text ≠ LineBreak.lf.split s.document.source) :
    ∃ b' p, s.commit b =
        .ok ⟨{ s with synced := some s.document.source, debounce := s.debounce.clear }, b',
          .ok (some p)⟩ ∧
      b'.text = b.lineBreak.restore s.document.source := by
  cases hr : LineRange.differing? (b.lineBreak.split b.text)
      (LineBreak.lf.split s.document.source) with
  | none => exact absurd (LineRange.differing?_eq_none_iff.mp hr) h
  | some r =>
    obtain ⟨b', p, -, -, hcommit, htext⟩ := exists_commit_of_differing hr
    exact ⟨b', p, hcommit, htext⟩

/-- A commit succeeds, whatever the buffer holds, and writes the document to it. -/
theorem exists_commit (s : Session) (b : Buffer) :
    ∃ b' patch, s.commit b =
        .ok ⟨{ s with synced := some s.document.source, debounce := s.debounce.clear }, b',
          .ok patch⟩ ∧
      b'.text = b.lineBreak.restore s.document.source := by
  by_cases h : b.lineBreak.split b.text = LineBreak.lf.split s.document.source
  · have hlines : (Host.lineBreak b).split (Host.text b) =
        LineBreak.lf.split s.document.source := h
    refine ⟨b, none, commit_of_eq hlines, ?_⟩
    rw [LineBreak.restore, ← h, LineBreak.join_split]
  · obtain ⟨b', p, hcommit, htext⟩ := exists_commit_of_ne h
    exact ⟨b', some p, hcommit, htext⟩

variable {s : Session} {b : Buffer}

/-- Setting a property succeeds, the property is read, and the buffer holds what is written of the
document. -/
theorem exists_edit (hf : s.document.Faithful) (ho : s.document.options.Nests) {w : PropertyWrite}
    (hw : w.Plain) (hsub : w.subject ∈ s.document.registry.roster.map Prod.fst) :
    ∃ s' b' patch, s.edit b (fun d => d.writeProperty w.subject w.name w.values) =
        .ok (⟨s', b', .ok patch⟩, true) ∧
      b'.text = b.lineBreak.restore s'.document.source ∧ s'.document.Faithful ∧
      s'.document.options = s.document.options ∧
      s'.document.registry.roster = s.document.registry.roster ∧
      s'.document.direct? w.subject w.name = .ok (some w.values) := by
  obtain ⟨h, hh⟩ := Registry.exists_handle?_iff.mpr hsub
  have hdefined : h.Defined s.document := by
    obtain ⟨subject, hmem, -, rfl⟩ := Registry.exists_of_handle? hh
    exact hf.valid.defined hmem
  obtain ⟨c, d', hwrite, hc, hfits, hstep, hdirect⟩ :=
    hf.valid.exists_writeProperty ho hh hdefined hw.isToken.ne_nil w.values
  obtain ⟨hfaithful, hoptions, hroster⟩ := hf.writingOf hw hc hfits hstep
  obtain ⟨b', patch, hcommit, htext⟩ := exists_commit { s with document := d' } b
  refine ⟨{ s with document := d', synced := some d'.source, debounce := s.debounce.clear }, b',
    patch, edit_of_commit hwrite hcommit, htext, hfaithful, hoptions, hroster, hdirect⟩

theorem exists_setAll (hf : s.document.Faithful) (ho : s.document.options.Nests)
    {ws : List PropertyWrite} (hw : ∀ w ∈ ws, w.Plain)
    (hsub : ∀ w ∈ ws, w.subject ∈ s.document.registry.roster.map Prod.fst) :
    ∃ s' b', s.setAll b ws = .ok (s', b', ws.map fun _ => .ok true) ∧ s'.document.Faithful ∧
      s'.document.registry.roster = s.document.registry.roster ∧
      ∀ w, ws.getLast? = some w →
        s'.document.direct? w.subject w.name = .ok (some w.values) ∧
          ∃ e : LineBreak, b'.text = e.restore s'.document.source := by
  induction ws generalizing s b with
  | nil => exact ⟨s, b, rfl, hf, rfl, by simp⟩
  | cons w ws ih =>
    simp only [List.forall_mem_cons] at hw hsub
    obtain ⟨s₁, b₁, patch, hedit, htext, hf₁, hoptions, hroster, hdirect⟩ :=
      exists_edit (b := b) hf ho hw.1 hsub.1
    obtain ⟨s', b', hrest, hf', hroster', hlast⟩ :=
      ih (b := b₁) hf₁ (hoptions ▸ ho) hw.2 (hroster ▸ hsub.2)
    refine ⟨s', b', ?_, hf', hroster'.trans hroster, ?_⟩
    · rw [setAll, hedit, Checked.ok_bind]
      dsimp only
      rw [hrest]
      rfl
    · intro v hv
      cases ws with
      | nil =>
        obtain rfl : w = v := by simpa using hv
        simp only [setAll, List.map_nil, Except.ok.injEq, Prod.mk.injEq] at hrest
        obtain ⟨rfl, rfl, -⟩ := hrest
        exact ⟨hdirect, _, htext⟩
      | cons u ws => exact hlast v (by simpa using hv)

theorem faithful_ofHost {text : Text} {e : LineBreak}
    (he : ∀ l ∈ e.split text, '\n' ∉ l ∧ '\r' ∉ l) {options : Options} (ho : options.Indents) :
    (ofHost (Buffer.ofText text) options).document.Faithful := by
  change (Document.parse ((LineBreak.detect text).normalize text) options).Faithful
  exact Document.faithful_parse (LineBreak.Uniform.not_mem_normalize he) ho

/-- What is set is what the file says: after any edits that set properties, a new session for the
buffer reads the property that was set last. -/
theorem setAll_reads_back (text : Text) {e : LineBreak}
    (he : ∀ l ∈ e.split text, '\n' ∉ l ∧ '\r' ∉ l) {options : Options} (ho : options.Nests)
    {ws : List PropertyWrite} (hw : ∀ w ∈ ws, w.Plain)
    (hsub : ∀ w ∈ ws, ∃ subject ∈
      (ofHost (Buffer.ofText text) options).document.registry.subjects, subject.id = w.subject)
    {last : PropertyWrite} (hlast : ws.getLast? = some last) :
    ∃ s b, (ofHost (Buffer.ofText text) options).setAll (Buffer.ofText text) ws =
        .ok (s, b, ws.map fun _ => .ok true) ∧
      (∀ sel : Selector, sel.resolve s.document =
        sel.resolve (ofHost (Buffer.ofText text) options).document) ∧
      ∀ sel : Selector, sel.resolve s.document = .ok last.subject →
        ∃ id, sel.resolve (ofHost b options).document = .ok id ∧
          (ofHost b options).document.direct? id last.name = .ok (some last.values) := by
  have hf := faithful_ofHost he ho.toIndents
  have hmem : ∀ w ∈ ws, w.subject ∈
      (ofHost (Buffer.ofText text) options).document.registry.roster.map Prod.fst := by
    intro w hw
    obtain ⟨subject, hin, hid⟩ := hsub w hw
    rw [Registry.roster, List.map_map]
    exact List.mem_map.mpr ⟨subject, hin, hid⟩
  obtain ⟨s, b, hrun, hf', hroster, hread⟩ := exists_setAll (b := Buffer.ofText text) hf ho hw hmem
  obtain ⟨hdirect, e', htext⟩ := hread last hlast
  have hresolve : ∀ {d d' : Document}, d.registry.roster = d'.registry.roster →
      ∀ sel : Selector, sel.resolve d = sel.resolve d' := by
    intro d d' h sel
    rw [Selector.resolve, Selector.resolve, Selector.find?_congr h]
  have hfresh : (ofHost b options).document = Document.parse s.document.source options := by
    rw [← hf'.normalize_restore e', ← htext]
    rfl
  obtain ⟨hregistry, hsame⟩ := hf'.direct?_parse options last.subject last.name
  refine ⟨s, b, hrun, hresolve hroster, fun sel hsel => ⟨last.subject, ?_, ?_⟩⟩
  · rw [hfresh]
    exact (hresolve (by rw [hregistry]) sel).trans hsel
  · rw [hfresh, hsame, hdirect]

/-- A value with both quotes that looks like a comment, set in a file with pairs as line breaks. -/
theorem setAll_reads_back_crlf :
    let text := "input a\r\n\tsprite\r\ninput b # last".toList
    let ws : List PropertyWrite :=
      [⟨2, "id".toList, ["a b".toList]⟩, ⟨0, "width".toList, [['8']]⟩,
        ⟨3, "tag".toList, ["#\"'".toList, []]⟩]
    (∀ l ∈ LineBreak.crlf.split text, '\n' ∉ l ∧ '\r' ∉ l) ∧ ({} : Options).Nests ∧
      (∀ w ∈ ws, w.Plain) ∧
      (∀ w ∈ ws, ∃ subject ∈ (ofHost (Buffer.ofText text) {}).document.registry.subjects,
        subject.id = w.subject) ∧
      ws.getLast? = some ⟨3, "tag".toList, ["#\"'".toList, []]⟩ ∧
      ∃ s b, (ofHost (Buffer.ofText text) {}).setAll (Buffer.ofText text) ws =
          .ok (s, b, [.ok true, .ok true, .ok true]) ∧
        (Selector.input 1).resolve s.document = .ok 3 ∧
        ∃ id, (Selector.input 1).resolve (ofHost b {}).document = .ok id ∧
          (ofHost b {}).document.direct? id "tag".toList = .ok (some ["#\"'".toList, []]) := by
  intro text ws
  have he : ∀ l ∈ LineBreak.crlf.split text, '\n' ∉ l ∧ '\r' ∉ l := by decide
  have hplain : ∀ w ∈ ws, w.Plain := by
    simp only [ws, List.forall_mem_cons]
    refine ⟨?_, ?_, ?_, by simp⟩ <;>
      exact ⟨⟨by decide, by decide⟩, by decide, fun kind => by cases kind <;> decide, by decide⟩
  have hsub : ∀ w ∈ ws, ∃ subject ∈
      (ofHost (Buffer.ofText text) {}).document.registry.subjects, subject.id = w.subject := by
    decide
  obtain ⟨s, b, hrun, hresolve, hread⟩ :=
    setAll_reads_back text he Options.nests_default hplain hsub rfl
  have hsel : (Selector.input 1).resolve s.document = .ok 3 := by
    rw [hresolve]
    rfl
  exact ⟨he, Options.nests_default, hplain, hsub, rfl, s, b, hrun, hsel, hread _ hsel⟩

end Session
end SpriteConfig
