import SpriteConfig.Buffer
import SpriteConfig.Proofs.Patch
/-!
# The history of a buffer

A step of the history knows what it deleted and what it inserted, but not the text that it was made
for: it can be undone in one text only, and done again in one text only. It never meets another. A
buffer is a list of all its texts with a cursor, whatever is done with it.
-/
namespace SpriteConfig

namespace Buffer

inductive Action
  | replace (start stop : Nat) (new : Text)
  | applyPatch (p : Patch)
  | undo
  | redo
  | setCaret (offset : Nat)
  | setLineBreak (e : LineBreak)
  deriving DecidableEq, Repr

/-- The buffer after an edit. An edit that is out of range leaves it as it is. -/
def edited (b : Buffer) : Except OutOfRange Buffer → Buffer × Except OutOfRange Bool
  | .ok b' => (b', .ok true)
  | .error e => (b, .error e)

/-- The buffer after an action, and whether the action did anything or why it was refused. -/
def act (b : Buffer) : Action → Checked (Buffer × Except OutOfRange Bool)
  | .replace start stop new => .ok (b.edited (b.replace start stop new))
  | .applyPatch p => .ok (b.edited (b.applyPatch p))
  | .undo => do
    let (b, answer) ← b.undo
    return (b, .ok answer)
  | .redo => do
    let (b, answer) ← b.redo
    return (b, .ok answer)
  | .setCaret offset => .ok (b.setCaret offset, .ok true)
  | .setLineBreak e => .ok (b.setLineBreak e, .ok true)

def actAll (b : Buffer) : List Action → Checked (Buffer × List (Except OutOfRange Bool))
  | [] => .ok (b, [])
  | a :: as => do
    let (b, answer) ← b.act a
    let (b, answers) ← b.actAll as
    return (b, answer :: answers)

end Buffer

/-- The texts of a buffer in the order in which they were made, with a cursor on one of them. -/
structure Timeline where
  texts : List Text
  cursor : Nat
  /-- The line breaks that the positions of patches are counted with. -/
  lineBreak : LineBreak
  deriving DecidableEq, Repr

namespace Timeline

def ofText (text : Text) : Timeline := ⟨[text], 0, LineBreak.detect text⟩

def current (t : Timeline) : Text := t.texts.getD t.cursor []

/-- A new text takes the place of those after the cursor. The oldest text goes when there are
`maxUndo` before the cursor already. -/
def push (t : Timeline) (new : Text) : Timeline :=
  let kept := t.texts.take (t.cursor + 1)
  let kept := if t.cursor < Buffer.maxUndo then kept else kept.tail
  { t with texts := kept ++ [new], cursor := kept.length }

def back (t : Timeline) : Timeline × Bool :=
  if 0 < t.cursor then ({ t with cursor := t.cursor - 1 }, true) else (t, false)

def forth (t : Timeline) : Timeline × Bool :=
  if t.cursor + 1 < t.texts.length then ({ t with cursor := t.cursor + 1 }, true) else (t, false)

def edited (t : Timeline) : Except OutOfRange Text → Timeline × Except OutOfRange Bool
  | .ok new => (t.push new, .ok true)
  | .error e => (t, .error e)

def act (t : Timeline) : Buffer.Action → Timeline × Except OutOfRange Bool
  | .replace start stop new =>
    t.edited
      (if start ≤ stop ∧ stop ≤ t.current.length then .ok (Text.splice start stop new t.current)
      else .error ⟨start, stop, t.current.length⟩)
  | .applyPatch p => t.edited (p.apply t.current t.lineBreak)
  | .undo => (t.back.1, .ok t.back.2)
  | .redo => (t.forth.1, .ok t.forth.2)
  | .setCaret _ => (t, .ok true)
  | .setLineBreak e => ({ t with lineBreak := e }, .ok true)

def actAll (t : Timeline) : List Buffer.Action → Timeline × List (Except OutOfRange Bool)
  | [] => (t, [])
  | a :: as =>
    let rest := (t.act a).1.actAll as
    (rest.1, (t.act a).2 :: rest.2)

end Timeline

/-- Whether a step turns a text into another one. -/
def Step.Turns (s : Step) (old new : Text) : Prop :=
  ∃ before after, before.length = s.start ∧ old = before ++ s.deleted ++ after ∧
    new = before ++ s.inserted ++ after

/-- Steps that lead from a text through others, each related to the texts on its two sides. -/
inductive Step.Linked (R : Step → Text → Text → Prop) : Text → List Step → List Text → Prop
  | nil (t : Text) : Linked R t [] []
  | cons {t u : Text} {s : Step} {ss : List Step} {us : List Text} (hstep : R s t u)
    (hrest : Linked R u ss us) : Linked R t (s :: ss) (u :: us)

namespace Step.Linked

variable {R : Step → Text → Text → Prop} {t : Text} {ss : List Step} {us : List Text}

theorem length_eq (h : Linked R t ss us) : us.length = ss.length := by
  induction h with
  | nil => rfl
  | cons _ _ ih => rw [List.length_cons, List.length_cons, ih]

theorem take (h : Linked R t ss us) (n : Nat) : Linked R t (ss.take n) (us.take n) := by
  induction h generalizing n with
  | nil t =>
    rw [List.take_nil, List.take_nil]
    exact .nil t
  | cons hstep _ ih =>
    cases n with
    | zero => exact .nil _
    | succ n => exact .cons hstep (ih n)

end Step.Linked

theorem Text.splice_middle {start stop : Nat} {t : Text} (hle : start ≤ stop)
    (hstop : stop ≤ t.length) (new : Text) :
    ∃ before after, before.length = start ∧ t = before ++ (t.take stop).drop start ++ after ∧
      splice start stop new t = before ++ new ++ after := by
  refine ⟨t.take start, t.drop stop, ?_, ?_, rfl⟩
  · rw [List.length_take]
    omega
  · have htake : (t.take stop).take start = t.take start := by
      rw [List.take_take, Nat.min_eq_left hle]
    rw [← htake, List.take_append_drop, List.take_append_drop]

namespace Buffer

variable {b : Buffer} {older newer : List Text}

def replaced (b : Buffer) (start stop : Nat) (new : Text) : Buffer :=
  { b with
    text := Text.splice start stop new b.text
    past := (⟨start, (b.text.take stop).drop start, new, b.caret⟩ :: b.past).take maxUndo
    future := []
    version := b.version + 1
    caret := offsetAfter b.caret start stop new.length }

theorem replace_eq {start stop : Nat} (hle : start ≤ stop) (hstop : stop ≤ b.length) (new : Text) :
    b.replace start stop new = .ok (b.replaced start stop new) := by
  have hsplice : b.splice start stop new = .ok _ := if_pos ⟨hle, hstop⟩
  rw [replace, hsplice]
  rfl

theorem replace_eq_error {start stop : Nat} (h : ¬ (start ≤ stop ∧ stop ≤ b.length)) (new : Text) :
    b.replace start stop new = .error ⟨start, stop, b.length⟩ := by
  have hsplice : b.splice start stop new = .error _ := if_neg h
  rw [replace, hsplice]
  rfl

theorem applyPatch_of_extent {p : Patch} {start stop : Nat}
    (h : p.extent b.text b.lineBreak = .ok (start, stop)) :
    b.applyPatch p = .ok (b.replaced start stop p.newText) := by
  obtain ⟨hle, hstop⟩ := Patch.le_of_extent h
  rw [applyPatch, h]
  exact replace_eq hle hstop p.newText

theorem applyPatch_of_extent_eq_error {p : Patch} {e : OutOfRange}
    (h : p.extent b.text b.lineBreak = .error e) : b.applyPatch p = .error e := by
  rw [applyPatch, h]
  rfl

theorem eq_replaced_of_applyPatch {p : Patch} {b' : Buffer} (h : b.applyPatch p = .ok b') :
    ∃ start stop, p.extent b.text b.lineBreak = .ok (start, stop) ∧
      b' = b.replaced start stop p.newText := by
  cases hextent : p.extent b.text b.lineBreak with
  | error e =>
    rw [applyPatch_of_extent_eq_error hextent] at h
    cases h
  | ok range =>
    rw [applyPatch_of_extent hextent, Except.ok.injEq] at h
    exact ⟨range.1, range.2, rfl, h.symm⟩

/-- Whether the steps of a buffer lead through these texts, back in time and forth. -/
structure Recalls (b : Buffer) (older newer : List Text) : Prop where
  past : Step.Linked (fun s t u => s.Turns u t) b.text b.past older
  future : Step.Linked Step.Turns b.text b.future newer
  depth_le : b.past.length + b.future.length ≤ maxUndo

/-- The text of a buffer among older ones, the latest first, and newer ones, the next first. -/
def timeline (b : Buffer) (older newer : List Text) : Timeline :=
  ⟨older.reverse ++ b.text :: newer, older.length, b.lineBreak⟩

theorem current_timeline (b : Buffer) (older newer : List Text) :
    (b.timeline older newer).current = b.text := by
  simp [timeline, Timeline.current]

theorem push_timeline (hlen : older.length ≤ maxUndo) {b' : Buffer}
    (he : b'.lineBreak = b.lineBreak) :
    (b.timeline older newer).push b'.text = b'.timeline ((b.text :: older).take maxUndo) [] := by
  have hkept : (b.timeline older newer).texts.take (older.length + 1) =
      (b.text :: older).reverse := by
    have htexts : (b.timeline older newer).texts = (b.text :: older).reverse ++ newer := by
      simp [timeline]
    rw [htexts]
    exact List.take_left' (by simp)
  have hcursor : (b.timeline older newer).cursor = older.length := rfl
  have hbreak : (b.timeline older newer).lineBreak = b'.lineBreak := he.symm
  rw [Timeline.push, hcursor, hkept, hbreak]
  by_cases h : older.length < maxUndo
  · rw [if_pos h, List.take_of_length_le h]
    simp [timeline]
  · have hfull : older.length = maxUndo := by omega
    have htail : (b.text :: older).reverse.tail = ((b.text :: older).take maxUndo).reverse := by
      rw [List.reverse_take, ← List.drop_one]
      simp [hfull]
    rw [if_neg h, htail]
    simp [timeline]

theorem recalls_ofText (text : Text) : (ofText text).Recalls [] [] :=
  ⟨.nil text, .nil text, Nat.zero_le _⟩

theorem Recalls.replace (h : b.Recalls older newer) {start stop : Nat} (hle : start ≤ stop)
    (hstop : stop ≤ b.length) (new : Text) :
    ∃ b', b.replace start stop new = .ok b' ∧ b'.text = Text.splice start stop new b.text ∧
      b'.lineBreak = b.lineBreak ∧ b'.Recalls ((b.text :: older).take maxUndo) [] := by
  obtain ⟨before, after, hbefore, hold, hnew⟩ := Text.splice_middle hle hstop new
  refine ⟨_, replace_eq hle hstop new, rfl, rfl, ?_, .nil _, ?_⟩
  · apply Step.Linked.take
    exact .cons ⟨before, after, hbefore, hold, hnew⟩ h.past
  · change ((_ :: b.past).take maxUndo).length + 0 ≤ maxUndo
    rw [List.length_take]
    omega

private theorem replay_eq {before middle after : Text} (h : b.text = before ++ middle ++ after)
    (new : Text) :
    b.replay before.length (before.length + middle.length) new = .ok
      { b with
        text := before ++ new ++ after
        caret := offsetAfter b.caret before.length (before.length + middle.length) new.length
        version := b.version + 1 } := by
  have hlen := congrArg List.length h
  simp only [List.length_append] at hlen
  have hstop : before.length + middle.length ≤ b.length := by
    rw [length]
    omega
  have hsplice : b.splice before.length (before.length + middle.length) new = .ok _ :=
    if_pos ⟨Nat.le_add_right _ _, hstop⟩
  rw [replay, hsplice, h, Text.splice_append]
  rfl

section Replay

variable {step : Step} {ss : List Step}

theorem undo_eq {old : Text} (hpast : b.past = step :: ss) (hturn : step.Turns old b.text) :
    b.undo = .ok
      ({ b with
        text := old
        caret := min step.caretBefore old.length
        past := ss
        future := step :: b.future
        version := b.version + 1 }, true) := by
  obtain ⟨before, after, hbefore, hold, hnew⟩ := hturn
  simp only [undo, hpast, ← hbefore, replay_eq hnew, Checked.ok_bind]
  rw [← hold]
  rfl

theorem redo_eq {new : Text} (hfuture : b.future = step :: ss) (hturn : step.Turns b.text new) :
    b.redo = .ok
      ({ b with
        text := new
        caret := offsetAfter b.caret step.start (step.start + step.deleted.length)
          step.inserted.length
        past := step :: b.past
        future := ss
        version := b.version + 1 }, true) := by
  obtain ⟨before, after, hbefore, hold, hnew⟩ := hturn
  simp only [redo, hfuture, ← hbefore, replay_eq hold, Checked.ok_bind]
  rw [← hnew]
  rfl

end Replay

theorem Recalls.undo (h : b.Recalls older newer) :
    ∃ b' older' newer' answer, b.undo = .ok (b', answer) ∧ b'.Recalls older' newer' ∧
      (b.timeline older newer).back = (b'.timeline older' newer', answer) := by
  obtain ⟨text, e, past, future, version, caret⟩ := b
  obtain ⟨hpast, hfuture, hdepth⟩ := h
  cases hpast with
  | nil => exact ⟨_, [], newer, false, rfl, ⟨.nil text, hfuture, hdepth⟩, rfl⟩
  | @cons _ old step ss olds hturn hrest =>
    refine ⟨_, olds, text :: newer, true, undo_eq rfl hturn, ⟨hrest, .cons hturn hfuture, ?_⟩, ?_⟩
    · simp only [List.length_cons] at hdepth ⊢
      omega
    · simp [Timeline.back, timeline]

theorem Recalls.redo (h : b.Recalls older newer) :
    ∃ b' older' newer' answer, b.redo = .ok (b', answer) ∧ b'.Recalls older' newer' ∧
      (b.timeline older newer).forth = (b'.timeline older' newer', answer) := by
  obtain ⟨text, e, past, future, version, caret⟩ := b
  obtain ⟨hpast, hfuture, hdepth⟩ := h
  cases hfuture with
  | nil =>
    refine ⟨_, older, [], false, rfl, ⟨hpast, .nil text, hdepth⟩, ?_⟩
    simp [Timeline.forth, timeline]
  | @cons _ next step ss nexts hturn hrest =>
    refine ⟨_, text :: older, nexts, true, redo_eq rfl hturn, ⟨.cons hturn hpast, hrest, ?_⟩, ?_⟩
    · simp only [List.length_cons] at hdepth ⊢
      omega
    · simp [Timeline.forth, timeline]

theorem act_applyPatch {p : Patch} {b' : Buffer} (h : b.applyPatch p = .ok b') :
    b.act (.applyPatch p) = .ok (b', .ok true) := by
  rw [act, h]
  rfl

theorem past_of_applyPatch {p : Patch} {b' : Buffer} (h : b.applyPatch p = .ok b') :
    b'.lineBreak = b.lineBreak ∧ ∃ step, b'.past = (step :: b.past).take maxUndo := by
  obtain ⟨start, stop, -, rfl⟩ := eq_replaced_of_applyPatch h
  exact ⟨rfl, _, rfl⟩

/-- Whatever is done with a buffer, the same can be done with its timeline. -/
theorem Recalls.act (h : b.Recalls older newer) (a : Action) :
    ∃ b' older' newer' answer, b.act a = .ok (b', answer) ∧ b'.Recalls older' newer' ∧
      (b.timeline older newer).act a = (b'.timeline older' newer', answer) := by
  have hlen : older.length ≤ maxUndo := by
    rw [h.past.length_eq]
    exact Nat.le_of_add_right_le h.depth_le
  have hedit : ∀ start stop new, start ≤ stop → stop ≤ b.length →
      ∃ b' older', b.replace start stop new = .ok b' ∧ b'.Recalls older' [] ∧
        (b.timeline older newer).push (Text.splice start stop new b.text) =
          b'.timeline older' [] := by
    intro start stop new hle hstop
    obtain ⟨b', hreplace, htext, hbreak, hrecalls⟩ := h.replace hle hstop new
    exact ⟨b', _, hreplace, hrecalls, htext ▸ push_timeline hlen hbreak⟩
  cases a with
  | replace start stop new =>
    rw [Buffer.act, Timeline.act, current_timeline]
    by_cases hrange : start ≤ stop ∧ stop ≤ b.text.length
    · obtain ⟨b', older', hreplace, hrecalls, hpush⟩ := hedit start stop new hrange.1 hrange.2
      refine ⟨b', older', [], .ok true, by rw [hreplace]; rfl, hrecalls, ?_⟩
      rw [if_pos hrange, Timeline.edited, hpush]
    · refine ⟨b, older, newer, _, by rw [replace_eq_error hrange]; rfl, h, ?_⟩
      rw [if_neg hrange]
      rfl
  | applyPatch p =>
    rw [Buffer.act, Timeline.act, current_timeline, Buffer.applyPatch, Patch.apply]
    cases hextent : p.extent b.text b.lineBreak with
    | error e =>
      have htimeline : p.extent b.text (b.timeline older newer).lineBreak = .error e := hextent
      exact ⟨b, older, newer, .error e, rfl, h, by rw [htimeline]; rfl⟩
    | ok range =>
      obtain ⟨start, stop⟩ := range
      have htimeline : p.extent b.text (b.timeline older newer).lineBreak = .ok (start, stop) :=
        hextent
      obtain ⟨hle, hstop⟩ := Patch.le_of_extent hextent
      obtain ⟨b', older', hreplace, hrecalls, hpush⟩ := hedit start stop p.newText hle hstop
      refine ⟨b', older', [], .ok true, ?_, hrecalls, ?_⟩
      · change Except.ok (b.edited (b.replace start stop p.newText)) = _
        rw [hreplace]
        rfl
      · rw [htimeline, ← hpush]
        rfl
  | undo =>
    obtain ⟨b', older', newer', answer, hundo, hrecalls, hback⟩ := h.undo
    refine ⟨b', older', newer', .ok answer, by rw [Buffer.act, hundo]; rfl, hrecalls, ?_⟩
    rw [Timeline.act, hback]
  | redo =>
    obtain ⟨b', older', newer', answer, hredo, hrecalls, hforth⟩ := h.redo
    refine ⟨b', older', newer', .ok answer, by rw [Buffer.act, hredo]; rfl, hrecalls, ?_⟩
    rw [Timeline.act, hforth]
  | setCaret offset => exact ⟨_, older, newer, _, rfl, ⟨h.past, h.future, h.depth_le⟩, rfl⟩
  | setLineBreak e => exact ⟨_, older, newer, _, rfl, ⟨h.past, h.future, h.depth_le⟩, rfl⟩

theorem Recalls.actAll (h : b.Recalls older newer) (as : List Action) :
    ∃ b' older' newer' answers, b.actAll as = .ok (b', answers) ∧ b'.Recalls older' newer' ∧
      (b.timeline older newer).actAll as = (b'.timeline older' newer', answers) := by
  induction as generalizing b older newer with
  | nil => exact ⟨b, older, newer, [], rfl, h, rfl⟩
  | cons a as ih =>
    obtain ⟨b₁, older₁, newer₁, answer, hact, h₁, htimeline⟩ := h.act a
    obtain ⟨b', older', newer', answers, hrest, h', htimeline'⟩ := ih h₁
    refine ⟨b', older', newer', answer :: answers, ?_, h', ?_⟩
    · rw [Buffer.actAll, hact, Checked.ok_bind]
      dsimp only
      rw [hrest]
      rfl
    · rw [Timeline.actAll, htimeline, htimeline']

/-- The history of a buffer is a list of texts with a cursor: whatever is done with a buffer, no
step of it is ever out of range, and it answers and shows what its timeline does. -/
theorem actAll_eq_timeline (text : Text) (as : List Action) :
    ∃ b t answers, (ofText text).actAll as = .ok (b, answers) ∧
      (Timeline.ofText text).actAll as = (t, answers) ∧ t.texts[t.cursor]? = some b.text ∧
      b.past.length = t.cursor ∧ t.cursor + 1 + b.future.length = t.texts.length ∧
      b.past.length + b.future.length ≤ maxUndo := by
  obtain ⟨b, older, newer, answers, hact, h, htimeline⟩ := (recalls_ofText text).actAll as
  have hpast := h.past.length_eq
  have hfuture := h.future.length_eq
  refine ⟨b, b.timeline older newer, answers, hact, htimeline, ?_, hpast.symm, ?_, h.depth_le⟩
  · simp [timeline]
  · simp only [timeline, List.length_append, List.length_reverse, List.length_cons]
    omega

end Buffer
end SpriteConfig
