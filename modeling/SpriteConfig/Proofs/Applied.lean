import SpriteConfig.Command.Run
import SpriteConfig.Proofs.Printed
import SpriteConfig.Proofs.Session
/-!
# Patches of buffers and of texts

A patch is applied to a plain text by cutting its bytes where characters begin, and to a buffer by
taking characters out and putting others in. Both give the same text, or refuse the patch for the
same reason. So the patch that is read from what a command prints leads from the text that it read
to the one that it writes.
-/
namespace SpriteConfig

namespace Text

/-- The number of bytes before character `n`, or of all bytes if there are not that many
characters. -/
def byteOffset (t : Text) (n : Nat) : Nat := byteLength (t.take n)

def remove (t : Text) (start stop : Nat) : Text := t.take start ++ t.drop stop

def insertAt (t : Text) (n : Nat) (new : Text) : Text := t.take n ++ new ++ t.drop n

theorem splice_eq_insertAt {start stop : Nat} {t : Text} (hle : start ≤ stop)
    (hstop : stop ≤ t.length) (new : Text) :
    splice start stop new t = (t.remove start stop).insertAt start new := by
  have hlength : (t.take start).length = start := by
    rw [List.length_take]
    omega
  rw [splice, insertAt, remove, List.take_left' hlength, List.drop_left' hlength]

end Text

namespace Utf8

theorem length_encode (t : Text) : (encode t).length = Text.byteLength t := by
  induction t with
  | nil => rfl
  | cons c t ih =>
    have hencode : encode (c :: t) = String.utf8EncodeChar c ++ encode t := rfl
    rw [hencode, List.length_append, String.length_utf8EncodeChar, ih, Text.byteLength]

theorem encode_append (s t : Text) : encode (s ++ t) = encode s ++ encode t := by
  show (s ++ t).flatMap String.utf8EncodeChar = _
  rw [List.flatMap_append]
  rfl

theorem encode_take_append_drop (t : Text) (n : Nat) :
    encode (t.take n) ++ encode (t.drop n) = encode t := by
  rw [← encode_append, List.take_append_drop]

theorem encode_take (t : Text) (n : Nat) :
    encode (t.take n) = (encode t).take (t.byteOffset n) := by
  rw [← encode_take_append_drop t n]
  exact (List.take_left' (length_encode (t.take n))).symm

theorem encode_drop (t : Text) (n : Nat) :
    encode (t.drop n) = (encode t).drop (t.byteOffset n) := by
  rw [← encode_take_append_drop t n]
  exact (List.drop_left' (length_encode (t.take n))).symm

end Utf8

namespace Patch

variable {p : Patch} {t new : Text} {e : LineBreak}

theorem apply_of_extent {start stop : Nat} (h : p.extent t e = .ok (start, stop)) :
    p.apply t e = .ok (Text.splice start stop p.newText t) := by
  rw [apply, h]
  rfl

theorem apply_of_extent_eq_error {err : OutOfRange} (h : p.extent t e = .error err) :
    p.apply t e = .error err := by
  rw [apply, h]
  rfl

/-- A patch replaces the bytes between those where two characters begin. -/
theorem encode_apply {start stop : Nat} (h : p.apply t e = .ok new)
    (hextent : p.extent t e = .ok (start, stop)) :
    Utf8.encode new = (Utf8.encode t).take (t.byteOffset start) ++ Utf8.encode p.newText ++
      (Utf8.encode t).drop (t.byteOffset stop) := by
  rw [apply_of_extent hextent, Except.ok.injEq] at h
  rw [← h, Text.splice, Utf8.encode_append, Utf8.encode_append, Utf8.encode_take, Utf8.encode_drop]

end Patch

namespace Buffer

/-- A buffer takes a patch exactly if its text does, and then holds the same text, of which the
characters that the patch replaces are taken out and its own ones are put in. -/
theorem applyPatch_cases (b : Buffer) (p : Patch) :
    (∃ b' start stop, b.applyPatch p = .ok b' ∧ p.apply b.text b.lineBreak = .ok b'.text ∧
      p.extent b.text b.lineBreak = .ok (start, stop) ∧
      b'.text = (b.text.remove start stop).insertAt start p.newText ∧
      b'.version = b.version + 1 ∧ b'.future = []) ∨
    ∃ e, b.applyPatch p = .error e ∧ p.apply b.text b.lineBreak = .error e := by
  cases hextent : p.extent b.text b.lineBreak with
  | ok range =>
    obtain ⟨hle, hstop⟩ := Patch.le_of_extent hextent
    exact .inl ⟨_, range.1, range.2, applyPatch_of_extent hextent, Patch.apply_of_extent hextent,
      rfl, Text.splice_eq_insertAt hle hstop p.newText, rfl, rfl⟩
  | error e =>
    exact .inr ⟨e, applyPatch_of_extent_eq_error hextent, Patch.apply_of_extent_eq_error hextent⟩

theorem act_applyPatch_of_eq_error {b : Buffer} {p : Patch} {e : OutOfRange}
    (h : b.applyPatch p = .error e) : b.act (.applyPatch p) = .ok (b, .error e) := by
  rw [act, h]
  rfl

end Buffer

namespace Command

variable {α β : Type}

theorem exists_of_bind_eq_ok {x : Except CommandError α} {f : α → Except CommandError β} {b : β}
    (h : x >>= f = .ok b) : ∃ a, x = .ok a ∧ f a = .ok b := by
  cases x with
  | ok a => exact ⟨a, rfl, h⟩
  | error e => cases h

theorem eq_ok_of_mapError {ε : Type} {r : Except ε α} {f : ε → CommandError} {a : α}
    (h : r.mapError f = .ok a) : r = .ok a := by
  cases r with
  | ok b => exact congrArg Except.ok (Except.ok.inj h)
  | error e => cases h

theorem parse?_printPatch {patch : Option Patch}
    (h : ∀ p, patch = some p → p.start.IsWord ∧ p.stop.IsWord) :
    Patch.parse? (printPatch patch) = patch := by
  cases patch with
  | none => rfl
  | some p =>
    obtain ⟨hstart, hstop⟩ := h p rfl
    exact Patch.parse?_pretty_of_isWord hstart hstop

theorem printPatch_injective : Function.Injective printPatch := by
  have hnull : ∀ p : Patch, printPatch (some p) ≠ printPatch none := by
    intro p h
    cases (congrArg Json.parse? h).symm.trans p.parse?_pretty
  rintro (_ | p) (_ | q) h
  · rfl
  · exact absurd h.symm (hnull q)
  · exact absurd h (hnull p)
  · exact congrArg some (Patch.eq_of_pretty h)

variable {read : ReadFile} {options : Options} {file : Text} {selector : Selector}
  {change : SubjectId → Edit} {isDryRun : Bool} {answer : Answer}

theorem exists_commit_of_runEdit
    (h : runEdit read options file selector change isDryRun = .ok answer) :
    ∃ text s c patch, loadText read file = .ok text ∧
      Session.commit s (Buffer.ofText text) = .ok c ∧ c.outcome = .ok patch ∧
      answer.stdout = printPatch patch ∧
      answer.write = if patch.isSome && !isDryRun then some (file, c.host.text) else none := by
  rw [runEdit] at h
  obtain ⟨text, htext, h⟩ := exists_of_bind_eq_ok h
  obtain ⟨session, -, h⟩ := exists_of_bind_eq_ok h
  obtain ⟨subject, -, h⟩ := exists_of_bind_eq_ok h
  obtain ⟨⟨c, isChanged⟩, hedit, h⟩ := exists_of_bind_eq_ok h
  obtain ⟨patch, hpatch, h⟩ := exists_of_bind_eq_ok h
  obtain ⟨⟨document, changed⟩, -, hedit⟩ := Checked.bind_eq_ok.mp (eq_ok_of_mapError hedit)
  obtain ⟨committed, hcommit, heq⟩ := Checked.bind_eq_ok.mp hedit
  obtain ⟨rfl, rfl⟩ := Prod.mk.inj (Except.ok.inj heq)
  obtain rfl := Except.ok.inj h
  exact ⟨text, _, committed, patch, htext, hcommit, eq_ok_of_mapError hpatch, rfl, rfl⟩

/-- The patch that an editing command prints leads from the text of its file to the text that it
writes, if it is no dry run. -/
theorem exists_apply_of_runEdit
    (h : runEdit read options file selector change isDryRun = .ok answer) :
    ∃ text patch, loadText read file = .ok text ∧ answer.stdout = printPatch patch ∧
      (patch = none → answer.write = none) ∧
      ∀ p, patch = some p → ∃ t, p.apply text (LineBreak.detect text) = .ok t ∧
        answer.write = if isDryRun then none else some (file, t) := by
  obtain ⟨text, s, c, patch, htext, hcommit, hpatch, hstdout, hwrite⟩ := exists_commit_of_runEdit h
  refine ⟨text, patch, htext, hstdout, ?_, ?_⟩
  · intro hnone
    rw [hwrite, hnone]
    rfl
  · intro p hp
    rcases Session.patch_of_commit hcommit hpatch with ⟨hnone, -⟩ | ⟨q, hq, happly⟩
    · rw [hnone] at hp
      cases hp
    · obtain rfl : q = p := Option.some.inj (hq.symm.trans hp)
      rcases Buffer.applyPatch_cases (Buffer.ofText text) q with
        ⟨b', -, -, happly', htext', -⟩ | ⟨e, herror, -⟩
      · obtain rfl : b' = c.host := Except.ok.inj (happly'.symm.trans happly)
        refine ⟨_, htext', ?_⟩
        rw [hwrite, hp]
        cases isDryRun <;> rfl
      · rw [herror] at happly
        cases happly

theorem parse?_printPatch_of_apply {text : Text} {e : LineBreak} {patch : Option Patch}
    (happly : ∀ p, patch = some p → ∃ t, p.apply text e = .ok t) (htext : text.length ≤ maxWord64) :
    Patch.parse? (printPatch patch) = patch := by
  refine parse?_printPatch fun p hp => ?_
  obtain ⟨t, ht⟩ := happly p hp
  cases hextent : p.extent text e with
  | ok range => exact Patch.isWord_of_extent hextent htext
  | error err =>
    rw [Patch.apply_of_extent_eq_error hextent] at ht
    cases ht

end Command

/-- A buffer and the plain text of it take the same patches with the same outcome, whatever was done
with the buffer before: the text has its bytes cut, and the buffer has characters taken out and
others put in. A patch that is refused leaves the buffer as it is. So the patch that an editing
command prints, and that is read from what it prints, gives the text that the command writes. -/
theorem Buffer.applyPatch_agrees (text : Text) (as : List Action) (read : ReadFile)
    (options : Options) (file : Text) (selector : Selector) (change : SubjectId → Edit)
    (isDryRun : Bool) :
    (∃ b answers, (ofText text).actAll as = .ok (b, answers) ∧ ∀ p : Patch,
      (∀ t, p.apply b.text b.lineBreak = .ok t →
        ∃ b' start stop, p.extent b.text b.lineBreak = .ok (start, stop) ∧
          Utf8.encode t = (Utf8.encode b.text).take (b.text.byteOffset start) ++
            Utf8.encode p.newText ++ (Utf8.encode b.text).drop (b.text.byteOffset stop) ∧
          b'.text = (b.text.remove start stop).insertAt start p.newText ∧
          b.applyPatch p = .ok b' ∧ b.act (.applyPatch p) = .ok (b', .ok true) ∧ b'.text = t ∧
          b'.version = b.version + 1 ∧ b'.future = []) ∧
      ∀ e, p.apply b.text b.lineBreak = .error e →
        b.applyPatch p = .error e ∧ b.act (.applyPatch p) = .ok (b, .error e)) ∧
    ∀ answer, (Command.edit file selector change isDryRun).run read options = .ok answer →
      ∃ original patch, Command.loadText read file = .ok original ∧
        answer.stdout = Command.printPatch patch ∧
        (∀ other, answer.stdout = Command.printPatch other → other = patch) ∧
        (original.length ≤ maxWord64 → Patch.parse? answer.stdout = patch) ∧
        (patch = none → answer.write = none) ∧
        ∀ p, patch = some p → ∃ t, p.apply original (LineBreak.detect original) = .ok t ∧
          answer.write = if isDryRun then none else some (file, t) := by
  obtain ⟨b, older, newer, answers, hact, -, -⟩ := (recalls_ofText text).actAll as
  refine ⟨⟨b, answers, hact, fun p => ?_⟩, fun answer hrun => ?_⟩
  · rcases b.applyPatch_cases p with
      ⟨b', start, stop, happly, hpure, hextent, htext, hversion, hfuture⟩ | ⟨e, herror, hpure⟩
    · refine ⟨?_, ?_⟩
      · intro t ht
        obtain rfl := Except.ok.inj (hpure.symm.trans ht)
        exact ⟨b', start, stop, hextent, Patch.encode_apply hpure hextent, htext, happly,
          act_applyPatch happly, rfl, hversion, hfuture⟩
      · intro e he
        cases hpure.symm.trans he
    · refine ⟨?_, ?_⟩
      · intro t ht
        cases hpure.symm.trans ht
      · intro e' he
        obtain rfl := Except.error.inj (hpure.symm.trans he)
        exact ⟨herror, act_applyPatch_of_eq_error herror⟩
  · obtain ⟨original, patch, hload, hstdout, hnone, hpatch⟩ := Command.exists_apply_of_runEdit hrun
    refine ⟨original, patch, hload, hstdout, ?_, ?_, hnone, hpatch⟩
    · intro other hother
      exact Command.printPatch_injective (hother.symm.trans hstdout)
    · intro hlength
      have happly : ∀ p, patch = some p →
          ∃ t, p.apply original (LineBreak.detect original) = .ok t := by
        intro p hp
        obtain ⟨t, ht, -⟩ := hpatch p hp
        exact ⟨t, ht⟩
      rw [hstdout]
      exact Command.parse?_printPatch_of_apply happly hlength

/-- Pairs as line breaks, a character of two bytes, and a patch across a line break; and a command
that sets a property in such a file. -/
theorem Buffer.applyPatch_agrees_crlf :
    let p : Patch := ⟨⟨0, 1⟩, ⟨1, 0⟩, ['-']⟩
    let inverted : Patch := ⟨⟨1, 0⟩, ⟨0, 1⟩, ['-']⟩
    let original := "input é\r\ninput b".toList
    let read : ReadFile := fun _ => .ok (Utf8.encode original)
    let command : Command :=
      .edit ['f'] (.input 0) (Edit.writeProperty · "width".toList [['8']]) false
    (∃ b answers,
      (ofText "é\r\nb".toList).actAll [.replace 0 1 ['a'], .undo] = .ok (b, answers) ∧
      p.apply b.text b.lineBreak = .ok "é-b".toList ∧
      (∃ b' start stop, p.extent b.text b.lineBreak = .ok (start, stop) ∧
        Utf8.encode "é-b".toList = (Utf8.encode b.text).take (b.text.byteOffset start) ++
          Utf8.encode p.newText ++ (Utf8.encode b.text).drop (b.text.byteOffset stop) ∧
        b'.text = (b.text.remove start stop).insertAt start p.newText ∧
        b.applyPatch p = .ok b' ∧ b.act (.applyPatch p) = .ok (b', .ok true) ∧
        b'.text = "é-b".toList ∧ b'.version = b.version + 1 ∧ b'.future = []) ∧
      inverted.apply b.text b.lineBreak = .error ⟨3, 1, 4⟩ ∧
      b.applyPatch inverted = .error ⟨3, 1, 4⟩ ∧
      b.act (.applyPatch inverted) = .ok (b, .error ⟨3, 1, 4⟩)) ∧
    ∃ answer patch, command.run read {} = .ok answer ∧
      original.length ≤ maxWord64 ∧ Patch.parse? answer.stdout = some patch ∧
      patch.apply original .crlf = .ok "input é\r\n  width 8\r\ninput b".toList ∧
      answer.write = some (['f'], "input é\r\n  width 8\r\ninput b".toList) := by
  intro p inverted original read command
  obtain ⟨⟨b, answers, hact, hagrees⟩, hcommand⟩ := applyPatch_agrees "é\r\nb".toList
    [.replace 0 1 ['a'], .undo] read {} ['f'] (.input 0)
    (Edit.writeProperty · "width".toList [['8']]) false
  have hbuffer : (ofText "é\r\nb".toList).actAll [.replace 0 1 ['a'], .undo] =
      .ok ({ ofText "é\r\nb".toList with future := [⟨0, ['é'], ['a'], 0⟩], version := 2 },
        [.ok true, .ok true]) := by
    rfl
  obtain ⟨rfl, rfl⟩ := Prod.mk.inj (Except.ok.inj (hact.symm.trans hbuffer))
  have happly : p.apply "é\r\nb".toList .crlf = .ok "é-b".toList := by rfl
  have hinverted : inverted.apply "é\r\nb".toList .crlf = .error ⟨3, 1, 4⟩ := by rfl
  obtain ⟨hrefused, hact'⟩ := (hagrees inverted).2 _ hinverted
  refine ⟨⟨_, _, hact, happly, (hagrees p).1 _ happly, hinverted, hrefused, hact'⟩, ?_⟩
  have hrun : ∃ answer, command.run read {} = .ok answer ∧
      answer.write = some (['f'], "input é\r\n  width 8\r\ninput b".toList) := ⟨_, rfl, rfl⟩
  obtain ⟨answer, hrun, hwrite⟩ := hrun
  obtain ⟨original', patch, hload, -, -, hparse, hnone, hpatch⟩ := hcommand answer hrun
  have hread : Command.loadText read ['f'] = .ok original := by rfl
  obtain rfl : original = original' := Except.ok.inj (hread.symm.trans hload)
  cases patch with
  | none =>
    rw [hnone rfl] at hwrite
    cases hwrite
  | some patch =>
    obtain ⟨t, ht, hwritten⟩ := hpatch patch rfl
    obtain ⟨-, rfl⟩ := Prod.mk.inj (Option.some.inj (hwrite.symm.trans hwritten))
    have hlength : original.length ≤ maxWord64 := by decide
    exact ⟨answer, patch, hrun, hlength, hparse hlength, ht, hwrite⟩

end SpriteConfig
