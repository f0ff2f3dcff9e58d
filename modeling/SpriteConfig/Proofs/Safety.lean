import SpriteConfig.Proofs.Echo
import SpriteConfig.Proofs.Exact
import SpriteConfig.Proofs.Numbered
import SpriteConfig.Proofs.Query
/-!
# Nothing ever fails

The documents that are in use stay valid, and the steps of a history fit the text that they meet. So
a document, a session and a buffer can be used in any order and with any names, values and numbers:
no operation meets a fault, and a program stops only if one of its counters runs over.
-/
namespace SpriteConfig

/-- A document of its own, and a session with its buffer. -/
structure Workspace where
  document : Document
  session : Session
  buffer : Buffer
  deriving DecidableEq, Repr

namespace Workspace

inductive Operation
  | use (u : Document.Use)
  /-- A new session takes the place of the old one. -/
  | attach
  | reread (text : Text)
  | rereadBytes (bytes : List UInt8)
  | ask (q : Document.Query)
  | commit
  | edit (us : List Document.Use)
  | editLater (now : Nat) (us : List Document.Use)
  | commitDue (now : Nat)
  | act (a : Buffer.Action)
  deriving DecidableEq, Repr

def start (source text : Text) (options : Options) : Workspace :=
  { document := Document.parse source options
    session := Session.empty options
    buffer := Buffer.ofText text }

def run (w : Workspace) : Operation → Checked Workspace
  | .use u => do
    let (document, _) ← w.document.use u
    return { w with document }
  | .attach => .ok { w with session := Session.ofHost w.buffer w.session.options }
  | .reread text => .ok { w with session := (w.session.reread text).1 }
  | .rereadBytes bytes => .ok { w with session := (w.session.rereadBytes bytes).1 }
  | .ask q => do
    let _ ← w.session.document.ask q
    return w
  | .commit => do
    let c ← w.session.commit w.buffer
    return { w with session := c.session, buffer := c.host }
  | .edit us => do
    let (c, _) ← w.session.edit w.buffer (·.useAll us)
    return { w with session := c.session, buffer := c.host }
  | .editLater now us => do
    let (session, _) ← w.session.editLater now (·.useAll us)
    return { w with session }
  | .commitDue now => do
    let c ← w.session.commitDue now w.buffer
    return { w with session := c.session, buffer := c.host }
  | .act a => do
    let (buffer, _) ← w.buffer.act a
    return { w with buffer }

def runAll (w : Workspace) (os : List Operation) : Checked Workspace := os.foldlM run w

/-- Whether no counter has run over: the next numbers of subjects are words of 32 bits, the version
of the buffer one of 64. -/
structure Counted (w : Workspace) : Prop where
  document : w.document.registry.IsNumbered
  session : w.session.document.registry.IsNumbered
  version : w.buffer.version ≤ maxWord64

/-- The workspace, unless one of its counters has run over. -/
def counted (w : Workspace) : Checked Workspace := do
  let document ← w.document.numbered
  let session ← w.session.numbered
  let buffer ← w.buffer.counted
  return { document, session, buffer }

/-- Runs an operation as a program does, whose counters are words. -/
def step (w : Workspace) (o : Operation) : Checked Workspace := do
  (← w.run o).counted

def steps (w : Workspace) (os : List Operation) : Checked Workspace := os.foldlM step w

def stepsFrom (source text : Text) (options : Options) (os : List Operation) :
    Checked Workspace := do
  (← (start source text options).counted).steps os

/-- Whether the documents are valid, and the history of the buffer fits its text. -/
structure Sound (w : Workspace) : Prop where
  document : w.document.Valid
  session : w.session.document.Valid
  indents : w.session.options.Indents
  buffer : ∃ older newer, w.buffer.Recalls older newer

variable {w : Workspace}

theorem sound_start (source text : Text) {options : Options} (ho : options.Indents) :
    (start source text options).Sound :=
  ⟨Document.valid_parse source ho, Document.valid_parse [] ho, ho, [], [],
    Buffer.recalls_ofText text⟩

theorem Sound.reread (h : w.Sound) (text : Text) :
    { w with session := (w.session.reread text).1 }.Sound := by
  rw [Session.reread]
  split
  · exact h
  · exact ⟨h.document, Document.valid_parse _ h.indents, h.indents, h.buffer⟩

theorem Sound.exists_commit (h : w.Sound) {s : Session} (hv : s.document.Valid)
    (ho : s.options.Indents) :
    ∃ c, s.commit w.buffer = .ok c ∧ { w with session := c.session, buffer := c.host }.Sound := by
  obtain ⟨b', patch, hcommit, -⟩ := Session.exists_commit s w.buffer
  refine ⟨_, hcommit, h.document, hv, ho, ?_⟩
  obtain ⟨older, newer, hrecalls⟩ := h.buffer
  rcases Session.host_of_commit hcommit rfl with hhost | ⟨p, happly⟩
  · exact ⟨older, newer, (show b' = w.buffer from hhost) ▸ hrecalls⟩
  · obtain ⟨b₁, older', newer', answer, hact, hrecalls', -⟩ := hrecalls.act (.applyPatch p)
    obtain ⟨rfl, -⟩ := Prod.mk.inj (Except.ok.inj (hact.symm.trans (Buffer.act_applyPatch happly)))
    exact ⟨older', newer', hrecalls'⟩

/-- An operation does not fail, and leaves everything sound. -/
theorem Sound.exists_run (h : w.Sound) (o : Operation) : ∃ w', w.run o = .ok w' ∧ w'.Sound := by
  cases o with
  | use u =>
    obtain ⟨d, answer, huse, hv⟩ := h.document.exists_use u
    exact ⟨{ w with document := d }, by rw [run, huse]; rfl, hv, h.session, h.indents, h.buffer⟩
  | attach =>
    have hempty : { w with session := Session.empty w.session.options }.Sound :=
      ⟨h.document, Document.valid_parse [] h.indents, h.indents, h.buffer⟩
    exact ⟨_, rfl, hempty.reread w.buffer.text⟩
  | reread text => exact ⟨_, rfl, h.reread text⟩
  | rereadBytes bytes =>
    refine ⟨_, rfl, ?_⟩
    rw [Session.rereadBytes]
    split
    · exact h.reread _
    · exact h
  | ask q =>
    obtain ⟨answer, hask⟩ := h.session.exists_ask q
    exact ⟨w, by rw [run, hask]; rfl, h⟩
  | commit =>
    obtain ⟨c, hcommit, hc⟩ := h.exists_commit h.session h.indents
    exact ⟨_, by rw [run, hcommit]; rfl, hc⟩
  | edit us =>
    obtain ⟨d, answers, huse, hv⟩ := h.session.exists_useAll us
    obtain ⟨c, hcommit, hc⟩ := h.exists_commit (s := { w.session with document := d }) hv h.indents
    refine ⟨_, ?_, hc⟩
    rw [run, Session.edit, huse]
    simp only [Checked.ok_bind, hcommit]
    rfl
  | editLater now us =>
    obtain ⟨d, answers, huse, hv⟩ := h.session.exists_useAll us
    refine ⟨{ w with session := { w.session with
        document := d, debounce := w.session.debounce.noteEdit now } }, ?_,
      h.document, hv, h.indents, h.buffer⟩
    rw [run, Session.editLater, huse]
    rfl
  | commitDue now =>
    by_cases hdue : w.session.debounce.isDue now = true
    · obtain ⟨c, hcommit, hc⟩ :=
        h.exists_commit (s := { w.session with debounce := w.session.debounce.clear }) h.session
          h.indents
      refine ⟨_, ?_, hc⟩
      rw [run, Session.commitDue_of_isDue hdue, hcommit]
      rfl
    · refine ⟨w, ?_, h⟩
      rw [run, Session.commitDue_of_not_isDue hdue]
      rfl
  | act a =>
    obtain ⟨older, newer, hrecalls⟩ := h.buffer
    obtain ⟨b', older', newer', answer, hact, hrecalls', -⟩ := hrecalls.act a
    exact ⟨{ w with buffer := b' }, by rw [run, hact]; rfl, h.document, h.session, h.indents, older',
      newer', hrecalls'⟩

theorem Sound.exists_runAll (h : w.Sound) (os : List Operation) :
    ∃ w', w.runAll os = .ok w' ∧ w'.Sound := by
  induction os generalizing w with
  | nil => exact ⟨w, rfl, h⟩
  | cons o os ih =>
    obtain ⟨w₁, hrun, h₁⟩ := h.exists_run o
    obtain ⟨w', hrest, h'⟩ := ih h₁
    refine ⟨w', ?_, h'⟩
    rw [runAll, List.foldlM_cons, hrun]
    exact hrest

theorem counted_of_counted (h : w.Counted) : w.counted = .ok w := by
  rw [counted, Document.numbered_of_isNumbered h.document, Session.numbered,
    Document.numbered_of_isNumbered h.session, Buffer.counted, if_pos h.version]
  rfl

theorem counted_of_not_counted (h : ¬ w.Counted) :
    w.counted = .error .tooManySubjects ∨ w.counted = .error .tooManyVersions := by
  rw [counted]
  by_cases hd : w.document.registry.IsNumbered
  · by_cases hs : w.session.document.registry.IsNumbered
    · have hversion : ¬ w.buffer.version ≤ maxWord64 := fun hb => h ⟨hd, hs, hb⟩
      rw [Document.numbered_of_isNumbered hd, Session.numbered, Document.numbered_of_isNumbered hs,
        Buffer.counted, if_neg hversion]
      exact .inr rfl
    · rw [Document.numbered_of_isNumbered hd, Session.numbered,
        Document.numbered_of_not_isNumbered hs]
      exact .inl rfl
  · rw [Document.numbered_of_not_isNumbered hd]
    exact .inl rfl

/-- Whether a program stops exactly if a counter has run over after some of its operations, and
nothing else stops it. -/
def StopsByCounter (w : Workspace) (os : List Operation) : Prop :=
  (∀ w', (w.counted >>= fun w => w.steps os) = .ok w' ↔
    w.runAll os = .ok w' ∧ ∀ os₁, os₁ <+: os → ∀ w₁, w.runAll os₁ = .ok w₁ → w₁.Counted) ∧
  ∀ f, (w.counted >>= fun w => w.steps os) = .error f → f = .tooManySubjects ∨ f = .tooManyVersions

theorem stopsByCounter_of_not_counted (h : ¬ w.Counted) (os : List Operation) :
    w.StopsByCounter os := by
  have hstop : ¬ ∀ os₁, os₁ <+: os → ∀ w₁, w.runAll os₁ = .ok w₁ → w₁.Counted :=
    fun hcounted => h (hcounted [] List.nil_prefix w rfl)
  obtain ⟨f, herror, hf⟩ : ∃ f, w.counted = .error f ∧
      (f = .tooManySubjects ∨ f = .tooManyVersions) := by
    rcases counted_of_not_counted h with herror | herror
    · exact ⟨_, herror, .inl rfl⟩
    · exact ⟨_, herror, .inr rfl⟩
  rw [StopsByCounter, herror, Checked.error_bind]
  exact ⟨fun w' => ⟨nofun, fun hok => absurd hok.2 hstop⟩, fun f' hf' => Except.error.inj hf' ▸ hf⟩

theorem Sound.stopsByCounter (h : w.Sound) (os : List Operation) : w.StopsByCounter os := by
  induction os generalizing w with
  | nil =>
    by_cases hw : w.Counted
    · rw [StopsByCounter, counted_of_counted hw, Checked.ok_bind]
      refine ⟨fun w' => ⟨fun hok => ⟨hok, ?_⟩, And.left⟩, nofun⟩
      intro os₁ hprefix w₁ hrun
      obtain rfl := List.prefix_nil.mp hprefix
      exact Except.ok.inj hrun ▸ hw
    · exact stopsByCounter_of_not_counted hw []
  | cons o os ih =>
    by_cases hw : w.Counted
    · obtain ⟨w₁, hrun, h₁⟩ := h.exists_run o
      have hall : ∀ os, w.runAll (o :: os) = w₁.runAll os := by
        intro os
        rw [runAll, List.foldlM_cons, hrun]
        rfl
      have hsteps : w.steps (o :: os) = w₁.counted >>= fun w => w.steps os := by
        rw [steps, List.foldlM_cons, step, hrun]
        rfl
      have hprefixes : (∀ os₁, os₁ <+: o :: os → ∀ w₂, w.runAll os₁ = .ok w₂ → w₂.Counted) ↔
          ∀ os₁, os₁ <+: os → ∀ w₂, w₁.runAll os₁ = .ok w₂ → w₂.Counted := by
        constructor
        · intro hcounted os₁ hprefix w₂ hw₂
          exact hcounted (o :: os₁) (List.cons_prefix_cons.mpr ⟨rfl, hprefix⟩) w₂
            ((hall os₁).trans hw₂)
        · intro hcounted os₁ hprefix w₂ hw₂
          rcases List.prefix_cons_iff.mp hprefix with rfl | ⟨os₂, rfl, hrest⟩
          · exact Except.ok.inj hw₂ ▸ hw
          · exact hcounted os₂ hrest w₂ ((hall os₂).symm.trans hw₂)
      rw [StopsByCounter, counted_of_counted hw, Checked.ok_bind, hsteps, hall, hprefixes]
      exact ih h₁
    · exact stopsByCounter_of_not_counted hw (o :: os)

/-- No operation fails, however a document, a session and its buffer are used: a program stops
exactly if, after some of its operations, the counter of subjects or of versions has run over. And
wherever the operations subtract, cut a text or resolve a patch, the numbers fit: no difference is
cut off at zero, the indentation of a line ends where a character ends, and a patch that has an
extent lies in its text. -/
theorem stepsFrom_never_fails (source text : Text) {options : Options} (ho : options.Indents)
    (os : List Operation) :
    (∃ w, (start source text options).runAll os = .ok w) ∧
      (∀ w, stepsFrom source text options os = .ok w ↔
        (start source text options).runAll os = .ok w ∧
          ∀ os₁, os₁ <+: os → ∀ w₁, (start source text options).runAll os₁ = .ok w₁ → w₁.Counted) ∧
      (∀ f, stepsFrom source text options os = .error f →
        f = .tooManySubjects ∨ f = .tooManyVersions) ∧
      (∀ (b : Buffer) (start stop : Nat) (new : Text),
        b.spliceExactly? start stop new = some (b.splice start stop new)) ∧
      (∀ (current proposed : Text) (e : LineBreak),
        Patch.computeWithExactly? current e proposed =
          some (Patch.computeWith current e proposed)) ∧
      (∀ (p : Patch) (t : Text) (e : LineBreak) (start stop : Nat),
        p.extent t e = .ok (start, stop) → start ≤ stop ∧ stop ≤ t.length) ∧
      ∀ l : Line, ∃ rest,
        Text.cut? (min (l.text.takeWhile Text.isIndent).length l.level) l.text = some rest ∧
          l.text = l.indent ++ rest := by
  have hs := sound_start source text ho
  obtain ⟨hok, hfault⟩ := hs.stopsByCounter os
  refine ⟨?_, hok, hfault, Buffer.spliceExactly?_eq, fun current proposed e => ?_, ?_,
    Line.exists_cut_indent⟩
  · obtain ⟨w, hrun, -⟩ := hs.exists_runAll os
    exact ⟨w, hrun⟩
  · exact Patch.computeWithExactly?_eq current e proposed
  · intro p t e start stop hextent
    exact Patch.le_of_extent hextent

/-- Names that are empty, hold blanks, quotes and line breaks or look like comments; numbers of
subjects that there are not; and edits, commits and undone steps across each other. -/
theorem stepsFrom_never_fails_hostile :
    let source := "input é\n  # x\n\t\tsprite".toList
    let text := "input\r\n  sprite é".toList
    let options : Options := { indentUnit := "\t ".toList, tabIndentUnit := [] }
    let os : List Operation :=
      [.use (.edit (.writeProperty 1 [] [])),
        .use (.edit (.writeProperty 1 "# é\n\"".toList [[]])),
        .use (.edit (.setLayout 1 .sprite)), .use (.ask (.effective 2 "\r ".toList)),
        .use (.edit (.deleteSubject 1)), .use (.ask (.layout 7)), .attach,
        .edit [.edit (.writeProperty 1 "a b'".toList ["#\n".toList]), .ask (.spriteName 2)],
        .act (.replace 9 4 []), .act .undo, .act (.applyPatch ⟨⟨0, 9⟩, ⟨7, 0⟩, []⟩),
        .editLater 5 [.edit (.deleteBlock 0)], .reread "\r\n\r".toList, .act (.setLineBreak .cr),
        .act .redo, .act (.setCaret 99), .commitDue 900, .commit]
    options.Indents ∧
      ∃ w, stepsFrom source text options os = .ok w ∧
        (start source text options).runAll os = .ok w ∧ w.buffer.past.length = 2 := by
  intro source text options os
  have ho : options.Indents := ⟨by decide, by decide⟩
  have hpast : (stepsFrom source text options os).map (fun w => w.buffer.past.length) = .ok 2 := by
    decide
  obtain ⟨-, hok, -⟩ := stepsFrom_never_fails source text ho os
  cases hsteps : stepsFrom source text options os with
  | ok w =>
    rw [hsteps] at hpast
    exact ⟨ho, w, rfl, ((hok w).mp hsteps).1, Except.ok.inj hpast⟩
  | error f =>
    rw [hsteps] at hpast
    cases hpast

end Workspace
end SpriteConfig
