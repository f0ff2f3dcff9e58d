import SpriteConfig.Proofs.Session
/-!
# The caret under commits

A patch moves the caret of a buffer by characters. A commit replaces a range of lines, and the caret
stays in its line and at its column wherever the range leaves the line alone: before the range its
line keeps its number, and behind the range it is renumbered. Only a caret at the very place where
lines are inserted stays in front of them.
-/
namespace SpriteConfig

/-- Whether the caret of a buffer stands at a column of a line. -/
def Buffer.CaretAt (b : Buffer) (line column : Nat) : Prop :=
  (⟨line, column⟩ : Position).offset? (b.lineBreak.split b.text) b.lineBreak.text.length =
    some b.caret

namespace LineRange

variable {lines proposed : List Text} {r : LineRange} {n : Nat}

/-- The number that a line behind a range has once the range is replaced. -/
def moved (r : LineRange) (n : Nat) : Nat := n - (r.last - r.first) + r.lines.length

theorem Turns.take_of_lt (h : r.Turns lines proposed) (hn : n < r.first) :
    proposed.take n = lines.take n ∧ proposed[n]? = lines[n]? := by
  have hbefore := h.take_first
  constructor
  · have htake := congrArg (List.take n) hbefore
    rwa [List.take_take, List.take_take, Nat.min_eq_left (Nat.le_of_lt hn)] at htake
  · have hget := congrArg (fun ls : List Text => ls[n]?) hbefore
    simpa only [List.getElem?_take_of_lt hn] using hget

theorem Turns.take_of_le (h : r.Turns lines proposed) (hn : r.last ≤ n) :
    proposed.take (r.moved n) =
        lines.take r.first ++ r.lines ++ (lines.drop r.last).take (n - r.last) ∧
      proposed[r.moved n]? = lines[n]? := by
  have hfirst := h.first_le
  have hmoved : r.moved n = (lines.take r.first ++ r.lines).length + (n - r.last) := by
    rw [moved, List.length_append, List.length_take_of_le h.first_le_length]
    omega
  rw [← h.replaceIn_eq, replaceIn, hmoved]
  constructor
  · exact List.take_length_add_append _
  · rw [List.getElem?_append_right (Nat.le_add_right _ _), Nat.add_sub_cancel_left,
      List.getElem?_drop, Nat.add_sub_cancel' hn]

end LineRange

namespace Position

variable {lines proposed : List Text} {r : LineRange} {n column k : Nat}

theorem offset?_of_lt (h : r.Turns lines proposed) (hn : n < r.first) (gap : Nat) :
    (⟨n, column⟩ : Position).offset? proposed gap = (⟨n, column⟩ : Position).offset? lines gap := by
  obtain ⟨htake, hget⟩ := h.take_of_lt hn
  rw [offset?, offset?, htake, hget]

theorem offset?_moved (e : LineBreak) (h : r.Turns lines proposed) (hn : r.last ≤ n)
    (hk : (⟨n, column⟩ : Position).offset? lines e.text.length = some k) :
    (⟨r.moved n, column⟩ : Position).offset? proposed e.text.length =
      some (k - ((e.ended (lines.take r.last)).length - (e.ended (lines.take r.first)).length) +
        (e.ended r.lines).length) := by
  obtain ⟨line, hline, hcolumn, hk⟩ := (offset?_eq_some_iff e).mp hk
  obtain ⟨htake, hget⟩ := h.take_of_le hn
  have hbefore : lines.take n = lines.take r.last ++ (lines.drop r.last).take (n - r.last) := by
    rw [← List.take_add, Nat.add_sub_cancel' hn]
  have hfirst : (e.ended (lines.take r.first)).length ≤ (e.ended (lines.take r.last)).length := by
    obtain ⟨rest, hrest⟩ := List.take_prefix_take_left (l := lines) h.first_le
    rw [← hrest, LineBreak.ended_append, List.length_append]
    exact Nat.le_add_right _ _
  refine (offset?_eq_some_iff e).mpr ⟨line, hget.trans hline, hcolumn, ?_⟩
  dsimp only at hk ⊢
  rw [hbefore, LineBreak.ended_append, List.length_append] at hk
  rw [htake, LineBreak.ended_append, LineBreak.ended_append, List.length_append, List.length_append]
  omega

end Position

namespace Buffer

variable {b b' : Buffer} {p : Patch} {r : LineRange} {line column : Nat}

theorem caret_of_lt (hcaret : b.CaretAt line column)
    (hp : Patch.ofRange b.text b.lineBreak r = .ok p) (ha : b.applyPatch p = .ok b')
    (hline : line < r.first) : b'.caret = b.caret := by
  obtain ⟨start, stop, hextent, rfl⟩ := eq_replaced_of_applyPatch ha
  obtain ⟨hstart, -, -⟩ := Patch.extent_eq_ok_iff.mp hextent
  obtain ⟨text, htext, hcolumn, -⟩ := (Position.offset?_eq_some_iff _).mp hcaret
  have hle : b.caret ≤ start := by
    apply Position.offset?_le_of_le _ hcaret hstart
    rcases Patch.start_ofRange_after hp hline htext with hlt | ⟨heq, hlength⟩
    · exact .inl hlt
    · exact .inr ⟨heq, Nat.le_trans hcolumn hlength⟩
  rw [replaced, offsetAfter, if_pos hle]

theorem caret_of_le {proposed : List Text} (hcaret : b.CaretAt line column)
    (hr : r.Turns (b.lineBreak.split b.text) proposed)
    (hp : Patch.ofRange b.text b.lineBreak r = .ok p) (ha : b.applyPatch p = .ok b')
    (hline : r.last ≤ line) :
    if r.first = line ∧ r.last = line ∧ column = 0 then b'.caret = b.caret
    else (⟨r.moved line, column⟩ : Position).offset? proposed b.lineBreak.text.length =
      some b'.caret := by
  obtain ⟨start, stop, hextent, rfl⟩ := eq_replaced_of_applyPatch ha
  obtain ⟨hstart, hstop, -⟩ := Patch.extent_eq_ok_iff.mp hextent
  obtain ⟨text, htext, hcolumn, hoffset⟩ := (Position.offset?_eq_some_iff _).mp hcaret
  dsimp only at htext hoffset
  have hlt : r.last < (b.lineBreak.split b.text).length :=
    Nat.lt_of_le_of_lt hline (List.getElem?_eq_some_iff.mp htext).1
  have hfirst : r.first < (b.lineBreak.split b.text).length := Nat.lt_of_le_of_lt hr.first_le hlt
  rw [Patch.ofRange_of_lt hr.first_le hlt, Except.ok.injEq] at hp
  subst hp
  have hstart' := Option.some.inj
    (hstart.symm.trans (Position.offset?_lineStart b.lineBreak hfirst))
  have hstop' := Option.some.inj (hstop.symm.trans (Position.offset?_lineStart b.lineBreak hlt))
  rw [replaced, offsetAfter]
  by_cases hstay : r.first = line ∧ r.last = line ∧ column = 0
  · obtain ⟨hfirst, -, hzero⟩ := id hstay
    rw [if_pos hstay, if_pos]
    rw [hoffset, hstart', hfirst, hzero]
    exact Nat.le_refl _
  · have hbehind : start < b.caret := by
      by_cases hbefore : r.first < line
      · apply Position.offset?_lt _ hstart hcaret
        rw [Position.lineStart_of_lt hfirst]
        exact hbefore
      · have hfirst_le := hr.first_le
        have hsame : r.first = line := by omega
        rw [hoffset, hstart', hsame]
        omega
    have hstop_le : stop ≤ b.caret := by
      apply Position.offset?_le_of_le _ hstop hcaret
      dsimp only
      rw [Position.lineStart_of_lt hlt]
      show r.last < line ∨ r.last = line ∧ 0 ≤ column
      omega
    rw [if_neg hstay, if_neg (Nat.not_le.mpr hbehind), if_pos hstop_le, hstart', hstop']
    exact Position.offset?_moved b.lineBreak hr hline hcaret

end Buffer

namespace Session

/-- A commit keeps the caret in its line and at its column where the lines are left alone: the line
is found again with its new number, and so is the caret, unless lines are inserted right where it
stands. -/
theorem commit_keeps_caret {s : Session} {b : Buffer} {line column : Nat}
    (hcaret : b.CaretAt line column) (hcr : b.lineBreak = .cr → '\r' ∉ s.document.source) :
    let lines := b.lineBreak.split b.text
    let proposed := LineBreak.lf.split s.document.source
    ∃ c patch, s.commit b = .ok c ∧ c.outcome = .ok patch ∧ c.host.lineBreak = b.lineBreak ∧
      b.lineBreak.split c.host.text = proposed ∧
      (LineRange.differing? lines proposed = none → c.host = b) ∧
      ∀ r, LineRange.differing? lines proposed = some r →
        (line < r.first → proposed[line]? = lines[line]? ∧ c.host.CaretAt line column) ∧
        (r.last ≤ line → proposed[r.moved line]? = lines[line]? ∧
          if r.first = line ∧ r.last = line ∧ column = 0 then c.host.caret = b.caret
          else c.host.CaretAt (r.moved line) column) := by
  intro lines proposed
  cases hdiff : LineRange.differing? lines proposed with
  | none =>
    have hsame : (Host.lineBreak b).split (Host.text b) = proposed :=
      LineRange.differing?_eq_none_iff.mp hdiff
    refine ⟨_, none, commit_of_eq hsame, rfl, rfl, hsame, fun _ => rfl, ?_⟩
    intro r hr
    cases hr
  | some r =>
    have hturns := LineRange.turns_differing? hdiff
    obtain ⟨b', p, hrange, happly, hcommit, htext⟩ := exists_commit_of_differing hdiff
    obtain ⟨hbreak, -⟩ := Buffer.past_of_applyPatch happly
    have hlines : b.lineBreak.split b'.text = proposed := by
      rw [htext]
      exact LineBreak.split_restore_of_cr hcr
    have hcaretAt : ∀ n, b'.CaretAt n column ↔
        (⟨n, column⟩ : Position).offset? proposed b.lineBreak.text.length = some b'.caret := by
      intro n
      rw [Buffer.CaretAt, hbreak, hlines]
    refine ⟨_, some p, hcommit, rfl, hbreak, hlines, ?_, ?_⟩
    · intro hnone
      cases hnone
    · intro r' hr'
      obtain rfl := Option.some.inj hr'
      constructor
      · intro hline
        refine ⟨(hturns.take_of_lt hline).2, (hcaretAt line).mpr ?_⟩
        rw [Position.offset?_of_lt hturns hline, Buffer.caret_of_lt hcaret hrange happly hline]
        exact hcaret
      · intro hline
        refine ⟨(hturns.take_of_le hline).2, ?_⟩
        simp only [hcaretAt]
        exact Buffer.caret_of_le hcaret hturns hrange happly hline

/-- A line that is replaced by two moves the caret in the line after it down. -/
theorem commit_keeps_caret_crlf :
    let s := { empty {} with document := Document.parse "é\nx\ny\nc".toList {} }
    let b := (Buffer.ofText "é\r\nb\r\nc".toList).setCaret 7
    b.CaretAt 2 1 ∧ (b.lineBreak = .cr → '\r' ∉ s.document.source) ∧
      ∃ c patch, s.commit b = .ok c ∧ c.outcome = .ok patch ∧ c.host.lineBreak = .crlf ∧
        LineBreak.crlf.split c.host.text = ["é".toList, ['x'], ['y'], ['c']] ∧
        c.host.CaretAt 3 1 := by
  intro s b
  have hcaret : b.CaretAt 2 1 := by rfl
  have hcr : b.lineBreak = .cr → '\r' ∉ s.document.source := by decide
  have hdiff : LineRange.differing? (b.lineBreak.split b.text)
      (LineBreak.lf.split s.document.source) = some ⟨1, 2, [['x'], ['y']]⟩ := by decide
  obtain ⟨c, patch, hcommit, hpatch, hbreak, hlines, -, hkeeps⟩ := commit_keeps_caret hcaret hcr
  obtain ⟨-, hmoved⟩ := (hkeeps _ hdiff).2 (Nat.le_refl 2)
  exact ⟨hcaret, hcr, c, patch, hcommit, hpatch, hbreak, hlines, hmoved⟩

end Session
end SpriteConfig
