import SpriteConfig.Proofs.Session
/-!
# Sessions and their own echo

A host that was patched reports its new text, and the session that sent the patch must not take the
report for news. Whatever edits, commits, undos and rereads came before, in any order: after a commit
the buffer holds the text of the document with the line breaks that it was created with, and reading
it anew changes nothing.
-/
namespace SpriteConfig

namespace Session

inductive Event
  | edit (es : List Edit)
  | editLater (now : Nat) (es : List Edit)
  | commitDue (now : Nat)
  | commit
  /-- The session is told the text of the buffer. -/
  | reread
  /-- The buffer is used without the session. -/
  | act (a : Buffer.Action)
  deriving DecidableEq, Repr

/-- The session and the buffer after an event, and the outcome of the commit if there was one. -/
def handle (s : Session) (b : Buffer) :
    Event → Checked (Session × Buffer × Option (Except OutOfRange (Option Patch)))
  | .edit es => do
    let (c, _) ← s.edit b fun d => (·, ()) <$> d.performAll es
    return (c.session, c.host, some c.outcome)
  | .editLater now es => do
    let (s, _) ← s.editLater now fun d => (·, ()) <$> d.performAll es
    return (s, b, none)
  | .commitDue now => do
    let c ← s.commitDue now b
    return (c.session, c.host, if s.debounce.isDue now then some c.outcome else none)
  | .commit => do
    let c ← s.commit b
    return (c.session, c.host, some c.outcome)
  | .reread => .ok ((s.reread b.text).1, b, none)
  | .act a => do
    let (b, _) ← b.act a
    return (s, b, none)

def handleAll (s : Session) (b : Buffer) : List Event → Checked (Session × Buffer)
  | [] => .ok (s, b)
  | v :: vs => do
    let (s, b, _) ← s.handle b v
    s.handleAll b vs

/-- Whether an event writes no line breaks of files, and leaves the buffer with texts that it had. -/
def Event.Plain : Event → Prop
  | .edit es | .editLater _ es => ∀ e ∈ es, e.Writes ('\r' ∉ ·) ('\r' ∉ ·)
  | .act a => a = .undo ∨ a = .redo
  | .commitDue _ | .commit | .reread => True

end Session

namespace Timeline

variable {t : Timeline} {x : Text}

theorem current_push (t : Timeline) (new : Text) : (t.push new).current = new := by
  simp [push, current]

theorem mem_push {new : Text} (hx : x ∈ (t.push new).texts) : x ∈ t.texts ∨ x = new := by
  simp only [push, List.mem_append, List.mem_singleton] at hx
  refine hx.imp_left fun hx => ?_
  split at hx
  · exact List.mem_of_mem_take hx
  · exact List.mem_of_mem_take (List.mem_of_mem_tail hx)

theorem mem_edited {r : Except OutOfRange Text} (hx : x ∈ (t.edited r).1.texts) :
    x ∈ t.texts ∨ x = (t.edited r).1.current := by
  cases r with
  | error e => exact .inl hx
  | ok new => exact (mem_push hx).imp_right fun h => h.trans (current_push t new).symm

theorem texts_back (t : Timeline) : t.back.1.texts = t.texts := by
  rw [back]
  split <;> rfl

theorem texts_forth (t : Timeline) : t.forth.1.texts = t.texts := by
  rw [forth]
  split <;> rfl

theorem lineBreak_act {a : Buffer.Action} (ha : ∀ e, a ≠ .setLineBreak e) (t : Timeline) :
    (t.act a).1.lineBreak = t.lineBreak := by
  have hedited : ∀ r, (t.edited r).1.lineBreak = t.lineBreak := by
    intro r
    cases r <;> rfl
  cases a with
  | replace start stop new => exact hedited _
  | applyPatch p => exact hedited _
  | undo =>
    simp only [act, back]
    split <;> rfl
  | redo =>
    simp only [act, forth]
    split <;> rfl
  | setCaret offset => rfl
  | setLineBreak e => exact absurd rfl (ha e)

end Timeline

namespace Session

variable {e : LineBreak} {s : Session} {b : Buffer}

theorem host_of_commit {c : Committed Buffer} (h : s.commit b = .ok c) {p : Option Patch}
    (hp : c.outcome = .ok p) : c.host = b ∨ ∃ p, b.applyPatch p = .ok c.host := by
  rcases patch_of_commit h hp with ⟨-, hhost⟩ | ⟨q, -, happly⟩
  · exact .inl hhost
  · exact .inr ⟨q, happly⟩

/-- Every text of the buffer has one kind of line breaks, and the lines of the document none. -/
structure InStep (e : LineBreak) (s : Session) (b : Buffer) : Prop where
  valid : s.document.Valid
  no_cr : s.document.Lacks '\r'
  indents : s.options.Indents
  lineBreak_eq : b.lineBreak = e
  uniform : ∃ older newer, b.Recalls older newer ∧ ∀ t ∈ (b.timeline older newer).texts, e.Uniform t

theorem InStep.no_cr_source (h : InStep e s b) : '\r' ∉ s.document.source :=
  h.no_cr.not_mem_source (by decide)

theorem InStep.uniform_text (h : InStep e s b) : e.Uniform b.text := by
  obtain ⟨older, newer, -, huniform⟩ := h.uniform
  exact huniform b.text (by simp [Buffer.timeline])

theorem InStep.performAll (h : InStep e s b) {es : List Edit}
    (hes : ∀ e ∈ es, e.Writes ('\r' ∉ ·) ('\r' ∉ ·)) :
    ∃ d, s.document.performAll es = .ok d ∧ d.Valid ∧ d.Lacks '\r' := by
  have hlayout : ∀ l : Layout, '\r' ∉ l.token := by
    intro l
    cases l <;> decide
  obtain ⟨cs, d, hperform, hfollows, hwrites⟩ :=
    h.valid.exists_performAll hlayout (Text.not_mem_ofNat rfl) hes
  exact ⟨d, hperform, h.valid.follows hfollows, h.no_cr.follows rfl rfl h.valid hwrites hfollows⟩

theorem InStep.reread (h : InStep e s b) : InStep e (s.reread b.text).1 b := by
  rw [Session.reread]
  split
  · exact h
  · exact ⟨Document.valid_parse _ h.indents,
      Document.lacks_of_not_mem h.uniform_text.not_mem_normalize _, h.indents, h.lineBreak_eq,
      h.uniform⟩

theorem InStep.act (h : InStep e s b) {a : Buffer.Action} (ha : ∀ e, a ≠ .setLineBreak e)
    {b' : Buffer} {answer : Except OutOfRange Bool} (hact : b.act a = .ok (b', answer))
    (hnew : ∀ t : Timeline, ∀ x ∈ (t.act a).1.texts,
      x ∈ t.texts ∨ x = (t.act a).1.current ∧ e.Uniform b'.text) :
    InStep e s b' := by
  obtain ⟨older, newer, hrecalls, huniform⟩ := h.uniform
  obtain ⟨b₁, older', newer', answer', hact', hrecalls', htimeline⟩ := hrecalls.act a
  obtain ⟨rfl, -⟩ := Prod.mk.inj (Except.ok.inj (hact'.symm.trans hact))
  have hbreak := Timeline.lineBreak_act ha (b.timeline older newer)
  rw [htimeline] at hbreak
  refine ⟨h.valid, h.no_cr, h.indents, hbreak.trans h.lineBreak_eq, older', newer', hrecalls', ?_⟩
  intro x hx
  have hx' : x ∈ ((b.timeline older newer).act a).1.texts := htimeline ▸ hx
  rcases hnew _ x hx' with hold | ⟨hcurrent, hplain⟩
  · exact huniform x hold
  · rw [hcurrent, htimeline, Buffer.current_timeline]
    exact hplain

theorem InStep.commit (h : InStep e s b) :
    ∃ s' b' patch, s.commit b = .ok ⟨s', b', .ok patch⟩ ∧ InStep e s' b' ∧
      b'.text = e.restore s'.document.source ∧ s'.reread b'.text = (s', false) := by
  obtain ⟨b', patch, hcommit, htext⟩ := exists_commit s b
  rw [h.lineBreak_eq] at htext
  have hbuffer : InStep e s b' := by
    rcases host_of_commit hcommit rfl with hhost | ⟨p, happly⟩
    · exact (show b' = b from hhost) ▸ h
    · apply h.act (by simp) (Buffer.act_applyPatch happly)
      intro t x hx
      refine (Timeline.mem_edited hx).imp_right fun hcurrent => ⟨hcurrent, ?_⟩
      rw [htext]
      exact e.uniform_restore h.no_cr_source
  refine ⟨_, b', patch, hcommit, ⟨h.valid, h.no_cr, h.indents, hbuffer.lineBreak_eq,
    hbuffer.uniform⟩, htext, ?_⟩
  -- The session keeps plain text: which line breaks it is told with, or none, is the same to it.
  rw [Session.reread, htext, e.normalize_detect_restore h.no_cr_source]
  exact if_pos rfl

/-- Whatever happens, the session and the buffer stay in step, and no commit comes back as news. -/
theorem InStep.handle (h : InStep e s b) {v : Event} (hv : v.Plain) :
    ∃ s' b' commit?, s.handle b v = .ok (s', b', commit?) ∧ InStep e s' b' ∧
      ∀ outcome, commit? = some outcome → (∃ patch, outcome = .ok patch) ∧
        b'.text = e.restore s'.document.source ∧ s'.reread b'.text = (s', false) := by
  cases v with
  | edit es =>
    obtain ⟨d, hperform, hvalid, hcr⟩ := h.performAll hv
    have hedited : InStep e { s with document := d } b :=
      ⟨hvalid, hcr, h.indents, h.lineBreak_eq, h.uniform⟩
    obtain ⟨s', b', patch, hcommit, h', htext, hreread⟩ := hedited.commit
    refine ⟨s', b', some (.ok patch), ?_, h', ?_⟩
    · rw [Session.handle, Session.edit, hperform]
      simp only [Checked.map_ok, Checked.ok_bind, hcommit]
      rfl
    · rintro outcome ⟨⟩
      exact ⟨⟨patch, rfl⟩, htext, hreread⟩
  | editLater now es =>
    obtain ⟨d, hperform, hvalid, hcr⟩ := h.performAll hv
    refine ⟨{ s with document := d, debounce := s.debounce.noteEdit now }, b, none, ?_,
      ⟨hvalid, hcr, h.indents, h.lineBreak_eq, h.uniform⟩, by simp⟩
    rw [Session.handle, Session.editLater, hperform]
    rfl
  | commitDue now =>
    rw [Session.handle]
    by_cases hdue : s.debounce.isDue now = true
    · have hclear : InStep e { s with debounce := s.debounce.clear } b :=
        ⟨h.valid, h.no_cr, h.indents, h.lineBreak_eq, h.uniform⟩
      obtain ⟨s', b', patch, hcommit, h', htext, hreread⟩ := hclear.commit
      refine ⟨s', b', some (.ok patch), ?_, h', ?_⟩
      · rw [commitDue_of_isDue hdue, hcommit, Checked.ok_bind, if_pos hdue]
        rfl
      · rintro outcome ⟨⟩
        exact ⟨⟨patch, rfl⟩, htext, hreread⟩
    · refine ⟨s, b, none, ?_, h, by simp⟩
      rw [commitDue_of_not_isDue hdue, Checked.ok_bind, if_neg hdue]
      rfl
  | commit =>
    obtain ⟨s', b', patch, hcommit, h', htext, hreread⟩ := h.commit
    refine ⟨s', b', some (.ok patch), by rw [Session.handle, hcommit]; rfl, h', ?_⟩
    rintro outcome ⟨⟩
    exact ⟨⟨patch, rfl⟩, htext, hreread⟩
  | reread => exact ⟨_, b, none, rfl, h.reread, by simp⟩
  | act a =>
    obtain ⟨older, newer, hrecalls, -⟩ := h.uniform
    obtain ⟨b', older', newer', answer, hact, -, -⟩ := hrecalls.act a
    refine ⟨s, b', none, by rw [Session.handle, hact]; rfl, ?_, by simp⟩
    rcases hv with rfl | rfl
    · exact h.act (by simp) hact fun t x hx => .inl (t.texts_back ▸ hx)
    · exact h.act (by simp) hact fun t x hx => .inl (t.texts_forth ▸ hx)

theorem InStep.handleAll (h : InStep e s b) {vs : List Event} (hvs : ∀ v ∈ vs, v.Plain) :
    ∃ s' b', s.handleAll b vs = .ok (s', b') ∧ InStep e s' b' := by
  induction vs generalizing s b with
  | nil => exact ⟨s, b, rfl, h⟩
  | cons v vs ih =>
    simp only [List.forall_mem_cons] at hvs
    obtain ⟨s₁, b₁, commit?, hhandle, h₁, -⟩ := h.handle hvs.1
    obtain ⟨s', b', hrest, h'⟩ := ih h₁ hvs.2
    refine ⟨s', b', ?_, h'⟩
    rw [Session.handleAll, hhandle]
    exact hrest

theorem inStep_ofHost {text : Text} (he : e.Uniform text) {options : Options}
    (ho : options.Indents) :
    InStep (LineBreak.detect text) (ofHost (Buffer.ofText text) options) (Buffer.ofText text) := by
  have huniform : ∀ t ∈ ((Buffer.ofText text).timeline [] []).texts,
      (LineBreak.detect text).Uniform t := by
    intro t ht
    rw [List.mem_singleton.mp (show t ∈ [text] from ht)]
    exact he.detect
  have hempty : InStep (LineBreak.detect text) (empty options) (Buffer.ofText text) :=
    ⟨Document.valid_parse [] ho, Document.lacks_of_not_mem (by simp) _, ho, rfl, [], [],
      Buffer.recalls_ofText text, huniform⟩
  exact hempty.reread

/-- A session never reacts to its own echo: after every commit the buffer holds the text of the
document with the line breaks that it was created with, and reading it anew changes nothing. -/
theorem handleAll_ignores_echo (text : Text) {e : LineBreak}
    (he : ∀ l ∈ e.split text, '\n' ∉ l ∧ '\r' ∉ l) {options : Options} (ho : options.Indents)
    {vs : List Event} (hvs : ∀ v ∈ vs, v.Plain) {v : Event} (hv : v.Plain) :
    ∃ s b s' b' commit?,
      (ofHost (Buffer.ofText text) options).handleAll (Buffer.ofText text) vs = .ok (s, b) ∧
      s.handle b v = .ok (s', b', commit?) ∧
      ∀ outcome, commit? = some outcome → (∃ patch, outcome = .ok patch) ∧
        b'.text = (Buffer.ofText text).lineBreak.restore s'.document.source ∧
        s'.reread b'.text = (s', false) := by
  obtain ⟨s, b, hrun, h⟩ := (inStep_ofHost (e := e) he ho).handleAll hvs
  obtain ⟨s', b', commit?, hhandle, -, hcommit⟩ := h.handle hv
  exact ⟨s, b, s', b', commit?, hrun, hhandle, hcommit⟩

/-- The last edit takes the only line break of the file away, so that its kind is told no longer. -/
theorem handleAll_ignores_echo_no_break :
    let text := "input a\r\n  sprite".toList
    let vs : List Event :=
      [.editLater 0 [.writeProperty 1 "tag".toList ["b c".toList]], .commitDue 250, .act .undo,
        .reread]
    let v : Event := .edit [.deleteSubject 2]
    (∀ l ∈ LineBreak.crlf.split text, '\n' ∉ l ∧ '\r' ∉ l) ∧ ({} : Options).Indents ∧
      (∀ v ∈ vs, v.Plain) ∧ v.Plain ∧
      ∃ s b s' b' patch,
        (ofHost (Buffer.ofText text) {}).handleAll (Buffer.ofText text) vs = .ok (s, b) ∧
        s.handle b v = .ok (s', b', some (.ok patch)) ∧ b'.text = "input a".toList ∧
        b'.text = LineBreak.crlf.restore s'.document.source ∧ s'.reread b'.text = (s', false) := by
  intro text vs v
  have he : ∀ l ∈ LineBreak.crlf.split text, '\n' ∉ l ∧ '\r' ∉ l := by decide
  have hvs : ∀ v ∈ vs, v.Plain := by
    simp only [vs, List.forall_mem_cons]
    refine ⟨?_, trivial, .inl rfl, trivial, by simp⟩
    intro e he
    rw [List.mem_singleton.mp he]
    exact ⟨by decide, by decide⟩
  have hv : v.Plain := by simp [v, Event.Plain, Edit.Writes]
  obtain ⟨s, b, s', b', commit?, hrun, hhandle, hcommit⟩ :=
    handleAll_ignores_echo text he Options.indents_default hvs hv
  have hlast : ((ofHost (Buffer.ofText text) {}).handleAll (Buffer.ofText text) vs >>=
      fun r => r.1.handle r.2 v).map (fun r => (r.2.1.text, r.2.2.isSome)) =
      .ok ("input a".toList, true) := by
    decide
  rw [hrun, Checked.ok_bind] at hlast
  dsimp only at hlast
  rw [hhandle] at hlast
  obtain ⟨htext, hsome⟩ := Prod.mk.inj (Except.ok.inj hlast)
  obtain ⟨outcome, rfl⟩ := Option.isSome_iff_exists.mp hsome
  obtain ⟨⟨patch, rfl⟩, hsource, hreread⟩ := hcommit outcome rfl
  exact ⟨he, Options.indents_default, hvs, hv, s, b, s', b', patch, hrun, hhandle, htext, hsource,
    hreread⟩

end Session
end SpriteConfig
