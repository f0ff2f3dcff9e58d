import SpriteConfig.Proofs.History
/-!
# The caret in the history of a buffer

A step of the history keeps the caret from before it, and undoing it puts the caret back, wherever
it has been moved since. A journal keeps what a buffer was right before and right after each of its
edits, when it was first made: it says what undoing the edit gives, and what doing it again gives.
-/
namespace SpriteConfig

structure Moment where
  text : Text
  caret : Nat
  deriving DecidableEq, Repr

/-- What a buffer was right before and right after an edit, when it was first made. -/
structure Entry where
  before : Moment
  after : Moment
  deriving DecidableEq, Repr

/-- The edits of a buffer: those to undo, the latest first, and those undone, the latest undone
first. -/
structure Journal where
  done : List Entry := []
  undone : List Entry := []
  deriving DecidableEq, Repr

namespace Journal

def back (j : Journal) : Journal :=
  match j.done with
  | [] => j
  | e :: es => ⟨es, e :: j.undone⟩

def forth (j : Journal) : Journal :=
  match j.undone with
  | [] => j
  | e :: es => ⟨e :: j.done, es⟩

/-- An edit is entered, and takes the place of those that were undone. The oldest entry goes when
there are too many. -/
def enter (j : Journal) (e : Entry) : Journal := ⟨(e :: j.done).take Buffer.maxUndo, []⟩

end Journal

namespace Buffer

def moment (b : Buffer) : Moment := ⟨b.text, b.caret⟩

/-- The journal of a buffer after an action that gave another buffer and an answer. -/
def note (b b' : Buffer) (j : Journal) : Action → Except OutOfRange Bool → Journal
  | .replace _ _ _, .ok _ | .applyPatch _, .ok _ => j.enter ⟨b.moment, b'.moment⟩
  | .undo, .ok true => j.back
  | .redo, .ok true => j.forth
  | _, _ => j

def noteAll (b : Buffer) (j : Journal) : List Action → Checked (Buffer × Journal)
  | [] => .ok (b, j)
  | a :: as => do
    let (b', answer) ← b.act a
    b'.noteAll (b.note b' j a answer) as

end Buffer

/-- Whether a step was made by an edit. -/
structure Step.Made (s : Step) (e : Entry) : Prop where
  turns : s.Turns e.before.text e.after.text
  caret_before : e.before.caret = s.caretBefore
  before_le : e.before.caret ≤ e.before.text.length
  caret_after : e.after.caret =
    Buffer.offsetAfter e.before.caret s.start (s.start + s.deleted.length) s.inserted.length

/-- Steps that lead from a text through the edits that made them: the text is at the near end of the
first edit, and each edit begins where the one before ends. -/
inductive Step.Traced (near far : Entry → Moment) : Text → List Step → List Entry → Prop
  | nil (t : Text) : Traced near far t [] []
  | cons {t : Text} {s : Step} {e : Entry} {ss : List Step} {es : List Entry} (hmade : s.Made e)
    (hnear : (near e).text = t) (hrest : Traced near far (far e).text ss es) :
    Traced near far t (s :: ss) (e :: es)

namespace Step.Traced

variable {near far : Entry → Moment} {t : Text} {ss : List Step} {e : Entry} {es : List Entry}

theorem take (h : Traced near far t ss es) (n : Nat) :
    Traced near far t (ss.take n) (es.take n) := by
  induction h generalizing n with
  | nil t =>
    rw [List.take_nil, List.take_nil]
    exact .nil t
  | cons hmade hnear _ ih =>
    cases n with
    | zero => exact .nil _
    | succ n => exact .cons hmade hnear (ih n)

theorem eq_nil (h : Traced near far t ss []) : ss = [] := by
  cases h
  rfl

theorem exists_cons (h : Traced near far t ss (e :: es)) :
    ∃ s rest, ss = s :: rest ∧ s.Made e ∧ (near e).text = t ∧
      Traced near far (far e).text rest es := by
  cases h with
  | cons hmade hnear hrest => exact ⟨_, _, rfl, hmade, hnear, hrest⟩

end Step.Traced

theorem Step.Turns.length_eq {s : Step} {old new : Text} (h : s.Turns old new) :
    s.start + s.deleted.length ≤ old.length ∧
      new.length + s.deleted.length = old.length + s.inserted.length := by
  obtain ⟨before, after, hbefore, rfl, rfl⟩ := h
  simp only [List.length_append]
  omega

theorem Step.Turns.offsetAfter_le {s : Step} {old new : Text} (h : s.Turns old new) {offset : Nat}
    (hoffset : offset ≤ old.length) :
    Buffer.offsetAfter offset s.start (s.start + s.deleted.length) s.inserted.length ≤
      new.length := by
  have hlength := h.length_eq
  rw [Buffer.offsetAfter]
  split
  · omega
  · split
    · omega
    · omega

namespace Buffer

variable {b b' : Buffer} {j : Journal} {e : Entry} {es : List Entry}

theorem replace_eq_ok_iff {start stop : Nat} {new : Text} :
    b.replace start stop new = .ok b' ↔
      start ≤ stop ∧ stop ≤ b.length ∧ b' = b.replaced start stop new := by
  by_cases hrange : start ≤ stop ∧ stop ≤ b.length
  · rw [replace_eq hrange.1 hrange.2, Except.ok.injEq]
    simp only [hrange, true_and]
    exact eq_comm
  · rw [replace_eq_error hrange, ← and_assoc]
    simp [hrange]

theorem drop_caret_replaced {start stop : Nat} (hle : start ≤ stop) (hstop : stop ≤ b.length)
    (hstart : start < b.caret) (hcaret : stop ≤ b.caret) (new : Text) :
    (b.replaced start stop new).text.drop (b.replaced start stop new).caret =
      b.text.drop b.caret := by
  have hafter : (b.replaced start stop new).caret = b.caret - (stop - start) + new.length := by
    change offsetAfter b.caret start stop new.length = _
    rw [offsetAfter, if_neg (Nat.not_le.mpr hstart), if_pos hcaret]
  have hbefore : (b.text.take start ++ new).length = start + new.length := by
    rw [List.length_append, List.length_take_of_le (Nat.le_trans hle hstop)]
  have hsplit : (b.replaced start stop new).caret =
      (b.text.take start ++ new).length + (b.caret - stop) := by
    omega
  change (b.text.take start ++ new ++ b.text.drop stop).drop _ = _
  rw [hsplit, List.drop_length_add_append, List.drop_drop, Nat.add_sub_cancel' hcaret]

/-- Whether a buffer has its caret in its text, and its steps are those of a journal. -/
structure Keeps (b : Buffer) (j : Journal) : Prop where
  caret_le : b.caret ≤ b.length
  past : Step.Traced Entry.after Entry.before b.text b.past j.done
  future : Step.Traced Entry.before Entry.after b.text b.future j.undone

theorem keeps_ofText (text : Text) : (ofText text).Keeps {} :=
  ⟨Nat.zero_le _, .nil text, .nil text⟩

theorem Keeps.replaced (h : b.Keeps j) {start stop : Nat} (hle : start ≤ stop)
    (hstop : stop ≤ b.length) (new : Text) :
    (b.replaced start stop new).Keeps
      (j.enter ⟨b.moment, (b.replaced start stop new).moment⟩) := by
  let step : Step := ⟨start, (b.text.take stop).drop start, new, b.caret⟩
  have hturns : step.Turns b.text (b.replaced start stop new).text :=
    Text.splice_middle hle hstop new
  have hend : start + step.deleted.length = stop := by
    rw [List.length_drop, List.length_take_of_le hstop, Nat.add_sub_cancel' hle]
  have hcaret : (b.replaced start stop new).caret =
      offsetAfter b.caret start (start + step.deleted.length) new.length := by
    rw [hend]
    rfl
  refine ⟨?_, ?_, .nil _⟩
  · rw [hcaret]
    exact hturns.offsetAfter_le h.caret_le
  · apply Step.Traced.take
    exact .cons ⟨hturns, rfl, h.caret_le, hcaret⟩ rfl h.past

theorem Keeps.undo_of_nil (h : b.Keeps j) (hdone : j.done = []) : b.undo = .ok (b, false) := by
  have hpast : b.past = [] := (hdone ▸ h.past).eq_nil
  rw [undo, hpast]

theorem Keeps.redo_of_nil (h : b.Keeps j) (hundone : j.undone = []) : b.redo = .ok (b, false) := by
  have hfuture : b.future = [] := (hundone ▸ h.future).eq_nil
  rw [redo, hfuture]

theorem Keeps.undo_of_cons (h : b.Keeps j) (hdone : j.done = e :: es) :
    ∃ b', b.undo = .ok (b', true) ∧ b'.moment = e.before ∧ b'.Keeps ⟨es, e :: j.undone⟩ := by
  obtain ⟨s, ss, hpast, hmade, hnear, hrest⟩ := (hdone ▸ h.past).exists_cons
  have hcaret : min s.caretBefore e.before.text.length = e.before.caret := by
    rw [← hmade.caret_before, Nat.min_eq_left hmade.before_le]
  refine ⟨_, undo_eq hpast (hnear ▸ hmade.turns), ?_, ?_, hrest, .cons hmade rfl (hnear ▸ h.future)⟩
  · rw [moment, hcaret]
  · exact Nat.min_le_right _ _

/-- Doing an edit again gives back the text from right after it, and the caret if it was where it
had been right before. -/
theorem Keeps.redo_of_cons (h : b.Keeps j) (hundone : j.undone = e :: es) :
    ∃ b', b.redo = .ok (b', true) ∧ b'.text = e.after.text ∧
      (b.caret = e.before.caret → b'.caret = e.after.caret) ∧ b'.Keeps ⟨e :: j.done, es⟩ := by
  obtain ⟨s, ss, hfuture, hmade, hnear, hrest⟩ := (hundone ▸ h.future).exists_cons
  have hturns : s.Turns b.text e.after.text := hnear ▸ hmade.turns
  refine ⟨_, redo_eq hfuture hturns, rfl, fun hcaret => ?_, ?_, .cons hmade rfl (hnear ▸ h.past),
    hrest⟩
  · rw [hmade.caret_after, ← hcaret]
  · exact hturns.offsetAfter_le h.caret_le

theorem Keeps.setCaret (h : b.Keeps j) (offset : Nat) : (b.setCaret offset).Keeps j :=
  ⟨Nat.min_le_right _ _, h.past, h.future⟩

theorem Keeps.setLineBreak (h : b.Keeps j) (e : LineBreak) : (b.setLineBreak e).Keeps j :=
  ⟨h.caret_le, h.past, h.future⟩

/-- Whatever is done with a buffer, the journal stays the one of its steps. -/
theorem Keeps.act (h : b.Keeps j) (a : Action) :
    ∃ b' answer, b.act a = .ok (b', answer) ∧ b'.Keeps (b.note b' j a answer) := by
  cases a with
  | replace start stop new =>
    rw [Buffer.act]
    cases hreplace : b.replace start stop new with
    | error e => exact ⟨b, .error e, rfl, h⟩
    | ok b' =>
      obtain ⟨hle, hstop, rfl⟩ := replace_eq_ok_iff.mp hreplace
      exact ⟨_, .ok true, rfl, h.replaced hle hstop new⟩
  | applyPatch p =>
    rw [Buffer.act]
    cases happly : b.applyPatch p with
    | error e => exact ⟨b, .error e, rfl, h⟩
    | ok b' =>
      obtain ⟨start, stop, hextent, rfl⟩ := eq_replaced_of_applyPatch happly
      obtain ⟨hle, hstop⟩ := Patch.le_of_extent hextent
      exact ⟨_, .ok true, rfl, h.replaced hle hstop p.newText⟩
  | undo =>
    cases hdone : j.done with
    | nil => exact ⟨b, .ok false, by rw [Buffer.act, h.undo_of_nil hdone]; rfl, h⟩
    | cons e es =>
      obtain ⟨b', hundo, -, hkeeps⟩ := h.undo_of_cons hdone
      refine ⟨b', .ok true, by rw [Buffer.act, hundo]; rfl, ?_⟩
      rwa [note, Journal.back, hdone]
  | redo =>
    cases hundone : j.undone with
    | nil => exact ⟨b, .ok false, by rw [Buffer.act, h.redo_of_nil hundone]; rfl, h⟩
    | cons e es =>
      obtain ⟨b', hredo, -, -, hkeeps⟩ := h.redo_of_cons hundone
      refine ⟨b', .ok true, by rw [Buffer.act, hredo]; rfl, ?_⟩
      rwa [note, Journal.forth, hundone]
  | setCaret offset => exact ⟨_, _, rfl, h.setCaret offset⟩
  | setLineBreak e => exact ⟨_, _, rfl, h.setLineBreak e⟩

theorem Keeps.actAll (h : b.Keeps j) (as : List Action) :
    ∃ b' answers j', b.actAll as = .ok (b', answers) ∧ b.noteAll j as = .ok (b', j') ∧
      b'.Keeps j' := by
  induction as generalizing b j with
  | nil => exact ⟨b, [], j, rfl, rfl, h⟩
  | cons a as ih =>
    obtain ⟨b₁, answer, hact, h₁⟩ := h.act a
    obtain ⟨b', answers, j', hrest, hnote, h'⟩ := ih h₁
    refine ⟨b', answer :: answers, j', ?_, ?_, h'⟩
    · rw [Buffer.actAll, hact, Checked.ok_bind]
      dsimp only
      rw [hrest]
      rfl
    · rw [noteAll, hact, Checked.ok_bind]
      exact hnote

/-- Whether undoing and doing an edit again gives what was right before it and right after it. The
line breaks do not matter. -/
def Reverts (b : Buffer) (e : Entry) : Prop :=
  ∃ b₁, b.undo = .ok (b₁, true) ∧ b₁.moment = e.before ∧
    ∀ lineBreak, ∃ b₂, (b₁.setLineBreak lineBreak).redo = .ok (b₂, true) ∧ b₂.moment = e.after

theorem Keeps.reverts (h : b.Keeps j) (hdone : j.done = e :: es) : b.Reverts e := by
  obtain ⟨b₁, hundo, hbefore, h₁⟩ := h.undo_of_cons hdone
  refine ⟨b₁, hundo, hbefore, fun lineBreak => ?_⟩
  obtain ⟨b₂, hredo, htext, hcaret, -⟩ := (h₁.setLineBreak lineBreak).redo_of_cons rfl
  refine ⟨b₂, hredo, ?_⟩
  rw [moment, htext, hcaret (congrArg Moment.caret hbefore)]

/-- Whatever has been done with a buffer, its caret is in its text. A replacement behind the caret
leaves it where it is, one in front of it keeps what is after it, and one around it moves it to the
end of the new text. Undoing an edit puts the caret back to where it was right before the edit was
first made, and doing it again right then puts it to where it was right after that. -/
theorem actAll_keeps_caret (text : Text) (as : List Action) :
    ∃ b answers j, (ofText text).actAll as = .ok (b, answers) ∧
      (ofText text).noteAll {} as = .ok (b, j) ∧ b.caret ≤ b.length ∧
      (∀ start stop new b', b.replace start stop new = .ok b' →
        (b.caret ≤ start → b'.caret = b.caret) ∧
        (start < b.caret → stop ≤ b.caret → b'.text.drop b'.caret = b.text.drop b.caret) ∧
        (start < b.caret → b.caret < stop → b'.caret = start + new.length) ∧
        ∀ lineBreak, (b'.setLineBreak lineBreak).Reverts ⟨b.moment, b'.moment⟩) ∧
      (j.done = [] → b.undo = .ok (b, false)) ∧ ∀ e es, j.done = e :: es → b.Reverts e := by
  obtain ⟨b, answers, j, hact, hnote, h⟩ := (keeps_ofText text).actAll as
  refine ⟨b, answers, j, hact, hnote, h.caret_le, ?_, h.undo_of_nil, fun e es => h.reverts⟩
  intro start stop new b' hreplace
  obtain ⟨hle, hstop, rfl⟩ := replace_eq_ok_iff.mp hreplace
  refine ⟨fun hstart => if_pos hstart, fun hstart hcaret => ?_, fun hstart hcaret => ?_, ?_⟩
  · exact drop_caret_replaced hle hstop hstart hcaret new
  · exact (if_neg (Nat.not_le.mpr hstart)).trans (if_neg (Nat.not_le.mpr hcaret))
  · intro lineBreak
    exact ((h.replaced hle hstop new).setLineBreak lineBreak).reverts rfl

/-- The caret is moved after an edit, and undoing the edit still puts it back. -/
theorem actAll_keeps_caret_moved :
    let as : List Action := [.setCaret 4, .replace 0 2 "xyz".toList, .setCaret 3]
    let e : Entry := ⟨⟨"abcdef".toList, 4⟩, ⟨"xyzcdef".toList, 5⟩⟩
    ∃ b answers, (ofText "abcdef".toList).actAll as = .ok (b, answers) ∧ b.caret = 3 ∧
      b.Reverts e ∧
      (∃ b', b.replace 3 4 [] = .ok b' ∧ b'.caret = b.caret) ∧
      (∃ b', b.replace 0 2 ['u'] = .ok b' ∧ b'.text.drop b'.caret = b.text.drop b.caret) ∧
      (∃ b', b.replace 2 5 ['u'] = .ok b' ∧ b'.caret = 3) := by
  intro as e
  let b : Buffer :=
    { ofText "abcdef".toList with
      text := "xyzcdef".toList
      past := [⟨0, "ab".toList, "xyz".toList, 4⟩]
      version := 1
      caret := 3 }
  have hact : (ofText "abcdef".toList).actAll as = .ok (b, [.ok true, .ok true, .ok true]) := rfl
  have hnote : (ofText "abcdef".toList).noteAll {} as = .ok (b, { done := [e] }) := rfl
  obtain ⟨b', answers, j, hact', hnote', -, hreplace, -, hreverts⟩ :=
    actAll_keeps_caret "abcdef".toList as
  obtain ⟨rfl, -⟩ := Prod.mk.inj (Except.ok.inj (hact.symm.trans hact'))
  obtain ⟨-, rfl⟩ := Prod.mk.inj (Except.ok.inj (hnote.symm.trans hnote'))
  refine ⟨b, _, hact, rfl, hreverts e [] rfl, ⟨_, rfl, ?_⟩, ⟨_, rfl, ?_⟩, ⟨_, rfl, ?_⟩⟩
  · exact (hreplace 3 4 [] _ rfl).1 (Nat.le_refl 3)
  · exact (hreplace 0 2 ['u'] _ rfl).2.1 (by decide) (by decide)
  · exact (hreplace 2 5 ['u'] _ rfl).2.2.1 (by decide) (by decide)

end Buffer
end SpriteConfig
