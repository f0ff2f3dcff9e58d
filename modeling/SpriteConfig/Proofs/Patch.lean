import SpriteConfig.Patch
import SpriteConfig.Proofs.LineBreak
import SpriteConfig.Proofs.LineRange
/-!
# Patches and lines

A patch whose two positions cut a text into three parts replaces the middle one. The patch of a
range of lines is such a patch, so the lines of the patched text are the lines with the range
replaced, and the patch between two texts gives the lines of the second.
-/
namespace SpriteConfig

theorem Text.splice_append (a m b new : Text) :
    Text.splice a.length (a.length + m.length) new (a ++ m ++ b) = a ++ new ++ b := by
  rw [Text.splice, ← List.length_append, List.drop_left, List.append_assoc a m b, List.take_left]

namespace Position

theorem lengthWithGaps_eq (e : LineBreak) (ls : List Text) :
    lengthWithGaps e.text.length ls = (e.ended ls).length := by
  induction ls with
  | nil => rfl
  | cons l ls ih => simp [lengthWithGaps, ih]; omega

theorem lineStart_of_lt {lines : List Text} {n : Nat} (h : n < lines.length) :
    lineStart lines n = ⟨n, 0⟩ :=
  if_pos h

theorem offset?_lineStart (e : LineBreak) {lines : List Text} {n : Nat} (h : n < lines.length) :
    (lineStart lines n).offset? lines e.text.length =
      some (e.ended (lines.take n)).length := by
  simp [lineStart, offset?, h, lengthWithGaps_eq]

theorem offset?_end (e : LineBreak) {lines : List Text} {n : Nat} (h : n < lines.length) :
    (⟨n, lines[n].length⟩ : Position).offset? lines e.text.length =
      some (Text.join e.text (lines.take (n + 1))).length := by
  have hjoin : Text.join e.text (lines.take (n + 1)) = e.ended (lines.take n) ++ lines[n] := by
    rw [List.take_succ_eq_append_getElem h, LineBreak.join_append_ended _ _ (by simp)]
    rfl
  simp [offset?, h, lengthWithGaps_eq, hjoin]

theorem offset?_lineStart_length (e : LineBreak) {lines : List Text} (h : lines ≠ []) :
    (lineStart lines lines.length).offset? lines e.text.length =
      some (Text.join e.text lines).length := by
  have hpos : lines.length - 1 < lines.length := by
    have := List.length_pos_iff.mpr h
    omega
  have hlast : lines.getLast?.getD [] = lines[lines.length - 1] := by
    rw [List.getLast?_eq_getElem?, List.getElem?_eq_getElem hpos, Option.getD_some]
  rw [lineStart, if_neg (Nat.lt_irrefl _), hlast, offset?_end e hpos, Nat.sub_add_cancel (by omega),
    List.take_length]

theorem offset?_eq_some_iff (e : LineBreak) {lines : List Text} {p : Position} {k : Nat} :
    p.offset? lines e.text.length = some k ↔
      ∃ line, lines[p.line]? = some line ∧ p.column ≤ line.length ∧
        k = (e.ended (lines.take p.line)).length + p.column := by
  cases hline : lines[p.line]? with
  | none => simp [offset?, hline]
  | some line => simp [offset?, hline, lengthWithGaps_eq, eq_comm]

theorem offset?_lt (e : LineBreak) {lines : List Text} {p q : Position} {i j : Nat}
    (hp : p.offset? lines e.text.length = some i) (hq : q.offset? lines e.text.length = some j)
    (h : p.line < q.line) : i < j := by
  obtain ⟨line, hline, hcolumn, rfl⟩ := (offset?_eq_some_iff e).mp hp
  obtain ⟨line', -, -, rfl⟩ := (offset?_eq_some_iff e).mp hq
  have hpos : 0 < e.text.length := by cases e <;> decide
  obtain ⟨k, hk⟩ := Nat.exists_eq_add_of_le h
  rw [hk, List.take_add, List.take_add_one, hline, Option.toList_some, LineBreak.ended_append,
    LineBreak.ended_append, LineBreak.ended_cons]
  simp only [List.length_append]
  omega

theorem offset?_le_of_le (e : LineBreak) {lines : List Text} {p q : Position} {i j : Nat}
    (hp : p.offset? lines e.text.length = some i) (hq : q.offset? lines e.text.length = some j)
    (h : p.line < q.line ∨ p.line = q.line ∧ p.column ≤ q.column) : i ≤ j := by
  rcases h with hlt | ⟨heq, hle⟩
  · exact Nat.le_of_lt (offset?_lt e hp hq hlt)
  · obtain ⟨line, -, -, rfl⟩ := (offset?_eq_some_iff e).mp hp
    obtain ⟨line', -, -, rfl⟩ := (offset?_eq_some_iff e).mp hq
    rw [heq]
    exact Nat.add_le_add_left hle _

theorem lineStart_after {lines : List Text} {k n : Nat} {line : Text} (hk : k < n)
    (hline : lines[k]? = some line) :
    k < (lineStart lines n).line ∨
      k = (lineStart lines n).line ∧ line.length ≤ (lineStart lines n).column := by
  obtain ⟨hlt, hget⟩ := List.getElem?_eq_some_iff.mp hline
  by_cases hn : n < lines.length
  · rw [lineStart_of_lt hn]
    exact .inl hk
  · rw [lineStart, if_neg hn]
    by_cases hlast : k = lines.length - 1
    · refine .inr ⟨hlast, ?_⟩
      rw [List.getLast?_eq_getElem?, ← hlast, hline]
      exact Nat.le_refl _
    · left
      show k < lines.length - 1
      omega

theorem exists_eq_ended_append {t : Text} {e : LineBreak} {n : Nat} {line : Text}
    (h : (e.split t)[n]? = some line) :
    ∃ rest, t = e.ended ((e.split t).take n) ++ (line ++ rest) := by
  obtain ⟨hlt, hget⟩ := List.getElem?_eq_some_iff.mp h
  have hdrop : (e.split t).drop n = line :: (e.split t).drop (n + 1) := by
    rw [List.drop_eq_getElem_cons hlt, hget]
  have hjoin : t = e.ended ((e.split t).take n) ++
      Text.join e.text (line :: (e.split t).drop (n + 1)) := by
    rw [← hdrop, ← LineBreak.join_append_ended _ _ (by simp [hdrop]), List.take_append_drop,
      LineBreak.join_split]
  have hline : ∃ rest, Text.join e.text (line :: (e.split t).drop (n + 1)) = line ++ rest := by
    cases (e.split t).drop (n + 1) with
    | nil => exact ⟨[], (List.append_nil line).symm⟩
    | cons m ms => exact ⟨_, List.append_assoc _ _ _⟩
  obtain ⟨rest, hrest⟩ := hline
  exact ⟨rest, by rw [← hrest, ← hjoin]⟩

theorem offset?_le {p : Position} {t : Text} {e : LineBreak} {k : Nat}
    (h : p.offset? (e.split t) e.text.length = some k) : k ≤ t.length := by
  obtain ⟨line, hline, hcolumn, rfl⟩ := (offset?_eq_some_iff e).mp h
  obtain ⟨rest, ht⟩ := exists_eq_ended_append hline
  have hlength := congrArg List.length ht
  rw [List.length_append, List.length_append] at hlength
  omega

end Position

namespace Patch

theorem extent_eq_ok_iff {p : Patch} {t : Text} {e : LineBreak} {start stop : Nat} :
    p.extent t e = .ok (start, stop) ↔
      p.start.offset? (e.split t) e.text.length = some start ∧
        p.stop.offset? (e.split t) e.text.length = some stop ∧ start ≤ stop := by
  rw [extent]
  cases p.start.offset? (e.split t) e.text.length with
  | none => simp
  | some i =>
    cases p.stop.offset? (e.split t) e.text.length with
    | none => simp
    | some j =>
      by_cases hle : i ≤ j
      · simp only [if_pos hle, Except.ok.injEq, Prod.mk.injEq, Option.some.injEq]
        grind
      · simp only [if_neg hle, Option.some.injEq]
        grind

theorem le_of_extent {p : Patch} {t : Text} {e : LineBreak} {start stop : Nat}
    (h : p.extent t e = .ok (start, stop)) : start ≤ stop ∧ stop ≤ t.length := by
  obtain ⟨-, hstop, hle⟩ := extent_eq_ok_iff.mp h
  exact ⟨hle, Position.offset?_le hstop⟩

/-- A patch cuts a text into what comes before it, what it replaces, and what comes after it. -/
structure Cuts (p : Patch) (t : Text) (e : LineBreak) (before middle after : Text) : Prop where
  text_eq : t = before ++ middle ++ after
  start_eq : p.start.offset? (e.split t) e.text.length = some before.length
  stop_eq : p.stop.offset? (e.split t) e.text.length = some (before ++ middle).length

theorem Cuts.extent_eq {p : Patch} {t : Text} {e : LineBreak} {a m b : Text}
    (h : p.Cuts t e a m b) : p.extent t e = .ok (a.length, a.length + m.length) := by
  simp [extent, h.start_eq, h.stop_eq]

theorem Cuts.apply_eq {p : Patch} {t : Text} {e : LineBreak} {a m b : Text}
    (h : p.Cuts t e a m b) : p.apply t e = .ok (a ++ p.newText ++ b) := by
  have hsplice : Text.splice a.length (a.length + m.length) p.newText t = a ++ p.newText ++ b := by
    rw [h.text_eq, Text.splice_append]
  rw [apply, h.extent_eq]
  simp only [bind, Except.bind, pure, Except.pure, hsplice]

section OfRange

variable {e : LineBreak} {current : Text} {lines : List Text} {first last : Nat}

private theorem cuts_between (hs : e.split current = lines) (hfl : first ≤ last)
    (hlast : last < lines.length) (new : Text) :
    Cuts ⟨Position.lineStart lines first, Position.lineStart lines last, new⟩ current e
      (e.ended (lines.take first)) (e.ended ((lines.take last).drop first))
      (Text.join e.text (lines.drop last)) := by
  have hcut := take_eq_append_drop lines hfl
  have hdrop : lines.drop last ≠ [] := by simpa using hlast
  subst hs
  refine ⟨?_, ?_, ?_⟩
  · rw [← LineBreak.ended_append, ← hcut, ← LineBreak.join_append_ended e _ hdrop,
      List.take_append_drop, LineBreak.join_split]
  · exact Position.offset?_lineStart e (by omega)
  · rw [← LineBreak.ended_append, ← hcut]
    exact Position.offset?_lineStart e hlast

private theorem cuts_to_end (hs : e.split current = lines) (hfirst : first < lines.length)
    (new : Text) :
    Cuts ⟨Position.lineStart lines first, Position.lineStart lines lines.length, new⟩ current e
      (e.ended (lines.take first)) (Text.join e.text (lines.drop first)) [] := by
  subst hs
  have hdrop : (e.split current).drop first ≠ [] := by simpa using hfirst
  have htext : e.ended ((e.split current).take first) ++
      Text.join e.text ((e.split current).drop first) = current := by
    rw [← LineBreak.join_append_ended e _ hdrop, List.take_append_drop, LineBreak.join_split]
  refine ⟨?_, Position.offset?_lineStart e hfirst, ?_⟩
  · rw [htext, List.append_nil]
  · rw [htext]
    simpa only [LineBreak.join_split] using
      Position.offset?_lineStart_length e (LineBreak.split_ne_nil e current)

private theorem cuts_at_end (hs : e.split current = lines) (new : Text) :
    Cuts ⟨Position.lineStart lines lines.length, Position.lineStart lines lines.length, new⟩
      current e current [] [] := by
  subst hs
  have hend := Position.offset?_lineStart_length e (LineBreak.split_ne_nil e current)
  rw [LineBreak.join_split] at hend
  refine ⟨by simp, hend, ?_⟩
  rw [List.append_nil]
  exact hend

private theorem cuts_before_end (hs : e.split current = lines) {n : Nat} (hn : n < lines.length) :
    ∃ m, Cuts ⟨⟨n, lines[n].length⟩, Position.lineStart lines lines.length, []⟩ current e
      (Text.join e.text (lines.take (n + 1))) m [] := by
  subst hs
  have hmiddle : ∃ m, Text.join e.text ((e.split current).take (n + 1)) ++ m = current := by
    by_cases hdrop : (e.split current).drop (n + 1) = []
    · refine ⟨[], ?_⟩
      rw [List.append_nil, List.take_of_length_le (by simpa using hdrop), LineBreak.join_split]
    · have htake : (e.split current).take (n + 1) ≠ [] := by simp [LineBreak.split_ne_nil]
      refine ⟨e.text ++ Text.join e.text ((e.split current).drop (n + 1)), ?_⟩
      rw [← List.append_assoc, ← LineBreak.join_append e htake hdrop, List.take_append_drop,
        LineBreak.join_split]
  obtain ⟨m, hm⟩ := hmiddle
  refine ⟨m, ?_, Position.offset?_end e hn, ?_⟩
  · rw [hm, List.append_nil]
  · rw [hm]
    simpa only [LineBreak.join_split] using
      Position.offset?_lineStart_length e (LineBreak.split_ne_nil e current)

private theorem exists_cuts_deletion {r : LineRange} (hs : e.split current = lines)
    (hfl : r.first ≤ r.last) (hlast : r.last ≤ lines.length) (hdel : r.lines = []) :
    ∃ p a m b, ofRange current e r = .ok p ∧ p.Cuts current e a m b ∧
      a ++ p.newText ++ b = Text.join e.text (r.replaceIn lines) := by
  have hempty : r.isDeletion = true := by simp [LineRange.isDeletion, hdel]
  by_cases hend : r.last = lines.length
  · have hreplaced : r.replaceIn lines = lines.take r.first := by
      simp [LineRange.replaceIn, hdel, hend]
    cases hfirst : r.first with
    | zero =>
      have hlines : 0 < lines.length := by
        rw [← hs]
        exact List.length_pos_iff.mpr (LineBreak.split_ne_nil e current)
      refine ⟨_, _, _, [], ?_, cuts_to_end hs hlines [], ?_⟩
      · simp [ofRange, hempty, hs, hend, hfirst]
      · rw [hreplaced, hfirst]
        rfl
    | succ n =>
      have hline : n < lines.length := by omega
      obtain ⟨m, hm⟩ := cuts_before_end hs hline
      refine ⟨_, _, m, [], ?_, hm, by rw [hreplaced, hfirst]; simp⟩
      simp [ofRange, hempty, hs, hend, hfirst, Position.lineEnd, hline, bind, Except.bind, pure,
        Except.pure]
  · have hlt : r.last < lines.length := by omega
    refine ⟨_, _, _, _, ?_, cuts_between hs hfl hlt [], ?_⟩
    · simp [ofRange, hempty, hs, Nat.not_le.mpr hlt]
    · rw [LineRange.replaceIn, hdel, List.append_nil, List.append_nil,
        LineBreak.join_append_ended e _ (by simpa using hlt)]

private theorem exists_cuts_insertion {r : LineRange} (hs : e.split current = lines)
    (hfl : r.first ≤ r.last) (hlast : r.last ≤ lines.length) (hnew : r.lines ≠ []) :
    ∃ p a m b, ofRange current e r = .ok p ∧ p.Cuts current e a m b ∧
      a ++ p.newText ++ b = Text.join e.text (r.replaceIn lines) := by
  have hempty : r.isDeletion = false := by simp [LineRange.isDeletion, hnew]
  have hok := show ofRange current e r = .ok _ by rw [ofRange, hempty, hs]; rfl
  by_cases hend : r.last = lines.length
  · have hreplaced : r.replaceIn lines = lines.take r.first ++ r.lines := by
      simp [LineRange.replaceIn, hend]
    by_cases hfirst : r.first < lines.length
    · rw [hend] at hok
      refine ⟨_, _, _, _, hok, cuts_to_end hs hfirst _, ?_⟩
      rw [hreplaced, LineBreak.join_append_ended e _ hnew]
      simp [Nat.not_le.mpr hfirst]
    · have hfirst : r.first = lines.length := by omega
      rw [hend, hfirst] at hok
      refine ⟨_, _, _, _, hok, cuts_at_end hs _, ?_⟩
      have hlines : lines ≠ [] := by
        rw [← hs]
        exact LineBreak.split_ne_nil e current
      rw [hreplaced, hfirst, List.take_length, LineBreak.join_append e hlines hnew, ← hs,
        LineBreak.join_split]
      simp
  · have hlt : r.last < lines.length := by omega
    refine ⟨_, _, _, _, hok, cuts_between hs hfl hlt _, ?_⟩
    have hdrop : lines.drop r.last ≠ [] := by simpa using hlt
    have hreplaced : Text.join e.text (r.replaceIn lines) =
        e.ended (lines.take r.first) ++
          (Text.join e.text r.lines ++ e.text ++ Text.join e.text (lines.drop r.last)) := by
      rw [LineRange.replaceIn, List.append_assoc,
        LineBreak.join_append_ended e _ (List.append_ne_nil_of_left_ne_nil hnew _),
        LineBreak.join_append e hnew hdrop]
    rw [hreplaced]
    simp [hlt, Nat.not_le.mpr (Nat.lt_of_le_of_lt hfl hlt)]

/-- The patch of a range makes the text of the lines with the range replaced. -/
theorem exists_cuts_ofRange {r : LineRange} (hs : e.split current = lines)
    (hfl : r.first ≤ r.last) (hlast : r.last ≤ lines.length) :
    ∃ p a m b, ofRange current e r = .ok p ∧ p.Cuts current e a m b ∧
      a ++ p.newText ++ b = Text.join e.text (r.replaceIn lines) := by
  by_cases hdel : r.lines = []
  · exact exists_cuts_deletion hs hfl hlast hdel
  · exact exists_cuts_insertion hs hfl hlast hdel

theorem ofRange_of_lt {r : LineRange} (hfl : r.first ≤ r.last)
    (hlt : r.last < (e.split current).length) :
    ofRange current e r = .ok ⟨Position.lineStart (e.split current) r.first,
      Position.lineStart (e.split current) r.last, e.ended r.lines⟩ := by
  by_cases hdel : r.lines = []
  · simp [ofRange, LineRange.isDeletion, hdel, Nat.not_le.mpr hlt]
  · have hfirst := Nat.not_le.mpr (Nat.lt_of_le_of_lt hfl hlt)
    simp [ofRange, LineRange.isDeletion, hdel, hlt, hfirst, LineBreak.join_append_text e hdel]

theorem start_ofRange_after {r : LineRange} {p : Patch} (h : ofRange current e r = .ok p) {k : Nat}
    {line : Text} (hk : k < r.first) (hline : (e.split current)[k]? = some line) :
    k < p.start.line ∨ k = p.start.line ∧ line.length ≤ p.start.column := by
  by_cases hend : r.isDeletion ∧ (e.split current).length ≤ r.last ∧ 0 < r.first
  · obtain ⟨hdel, hend⟩ := hend
    simp only [ofRange, hdel, if_true, if_pos hend] at h
    obtain ⟨start, hstart, h⟩ := Checked.bind_eq_ok.mp h
    obtain rfl := Except.ok.inj h
    rw [Position.lineEnd] at hstart
    split at hstart
    · next last hlast =>
      obtain rfl := Except.ok.inj hstart
      by_cases heq : k = r.first - 1
      · refine .inr ⟨heq, ?_⟩
        rw [heq, hlast] at hline
        exact Nat.le_of_eq (congrArg List.length (Option.some.inj hline)).symm
      · left
        show k < r.first - 1
        omega
    · cases hstart
  · have hstart : p.start = Position.lineStart (e.split current) r.first := by
      rw [ofRange] at h
      split at h
      · next hdel =>
        rw [if_neg fun hlast => hend ⟨hdel, hlast⟩] at h
        exact congrArg Patch.start (Except.ok.inj h).symm
      · exact congrArg Patch.start (Except.ok.inj h).symm
    rw [hstart]
    exact Position.lineStart_after hk hline

end OfRange

theorem computeWith_of_eq {current proposed : Text} {e : LineBreak}
    (h : e.split current = LineBreak.lf.split proposed) :
    computeWith current e proposed = .ok none := by
  rw [computeWith, LineRange.differing?_eq_none_iff.mpr h]

theorem computeWith_eq_some_iff {current proposed : Text} {e : LineBreak} {r : LineRange}
    (h : LineRange.differing? (e.split current) (LineBreak.lf.split proposed) = some r)
    {p : Patch} :
    computeWith current e proposed = .ok (some p) ↔ ofRange current e r = .ok p := by
  rw [computeWith, h]
  show (ofRange current e r).map some = .ok (some p) ↔ _
  cases ofRange current e r <;> simp [Except.map]

theorem exists_cuts_computeWith {current proposed : Text} {e : LineBreak}
    (h : e.split current ≠ LineBreak.lf.split proposed) :
    ∃ p a m b, computeWith current e proposed = .ok (some p) ∧ p.Cuts current e a m b ∧
      a ++ p.newText ++ b = Text.join e.text (LineBreak.lf.split proposed) := by
  cases hr : LineRange.differing? (e.split current) (LineBreak.lf.split proposed) with
  | none => exact absurd (LineRange.differing?_eq_none_iff.mp hr) h
  | some r =>
    obtain ⟨hfl, hlast, hreplaced⟩ := LineRange.replaceIn_differing? hr
    obtain ⟨p, a, m, b, hp, hcuts, htext⟩ := exists_cuts_ofRange rfl hfl hlast
    refine ⟨p, a, m, b, ?_, hcuts, by rw [htext, hreplaced]⟩
    rw [computeWith, hr]
    simp only [hp, Except.map]

private theorem forall_free_replaceIn_iff {t : Text} {e : LineBreak} {r : LineRange} :
    (∀ l ∈ r.replaceIn (e.split t), e.Free l) ↔ ∀ l ∈ r.lines, e.Free l := by
  constructor
  · intro h l hl
    apply h
    rw [LineRange.replaceIn, List.mem_append, List.mem_append]
    exact .inl (.inr hl)
  · intro h l hl
    rw [LineRange.replaceIn, List.mem_append, List.mem_append] at hl
    rcases hl with (hl | hl) | hl
    · exact LineBreak.free_of_mem_split (List.mem_of_mem_take hl)
    · exact h l hl
    · exact LineBreak.free_of_mem_split (List.mem_of_mem_drop hl)

/-- The patch of a range in the lines of a text applies to the text, whichever lines it puts there.
The patched text has the lines with the range replaced exactly if no line that is put there holds a
line break and some line is left. -/
theorem ofRange_replaces_lines (current : Text) (e : LineBreak) (r : LineRange)
    (hfl : r.first ≤ r.last) (hlast : r.last ≤ (e.split current).length) :
    ∃ p patched, ofRange current e r = .ok p ∧ p.apply current e = .ok patched ∧
      (e.split patched =
          (e.split current).take r.first ++ r.lines ++ (e.split current).drop r.last ↔
        (∀ l ∈ r.lines, e.Free l) ∧
          ¬ (r.lines = [] ∧ r.first = 0 ∧ r.last = (e.split current).length)) := by
  obtain ⟨p, a, m, b, hp, hcuts, htext⟩ := exists_cuts_ofRange rfl hfl hlast
  refine ⟨p, _, hp, hcuts.apply_eq, ?_⟩
  rw [htext, ← LineRange.replaceIn, LineBreak.split_join_iff, ne_eq,
    LineRange.replaceIn_eq_nil_iff (LineBreak.split_ne_nil e current) hlast,
    forall_free_replaceIn_iff]
  exact and_comm

/-- Halves of a pair next to the cuts, and in the lines that are put there. -/
theorem ofRange_replaces_lines_stray_halves :
    let current := "a\r\r\n\nb\r\nc".toList
    let r : LineRange := ⟨1, 2, ["\nx\r".toList, []]⟩
    r.first ≤ r.last ∧ r.last ≤ (LineBreak.crlf.split current).length ∧
      ∃ p patched, ofRange current .crlf r = .ok p ∧ p.apply current .crlf = .ok patched ∧
        LineBreak.crlf.split patched = ["a\r".toList, "\nx\r".toList, [], "c".toList] := by
  intro current r
  have hfl : r.first ≤ r.last := by decide
  have hlast : r.last ≤ (LineBreak.crlf.split current).length := by decide
  have hfree : ∀ l ∈ r.lines, LineBreak.crlf.Free l := by decide
  have hleft : ¬ (r.lines = [] ∧ r.first = 0 ∧
      r.last = (LineBreak.crlf.split current).length) := by decide
  obtain ⟨p, patched, hp, hpatched, hlines⟩ := ofRange_replaces_lines current .crlf r hfl hlast
  exact ⟨hfl, hlast, p, patched, hp, hpatched, hlines.mpr ⟨hfree, hleft⟩⟩

/-- A patch is computed exactly if the lines differ. It resolves and gives the proposed lines. -/
theorem computeWith_reproduces_lines (current proposed : Text) (e : LineBreak)
    (hcr : e = .cr → '\r' ∉ proposed) :
    ∃ answer, computeWith current e proposed = .ok answer ∧
      (answer = none ↔ e.split current = LineBreak.lf.split proposed) ∧
      ∀ p, answer = some p → (∃ range, p.extent current e = .ok range) ∧
        ∃ patched, p.apply current e = .ok patched ∧
          e.split patched = LineBreak.lf.split proposed := by
  by_cases h : e.split current = LineBreak.lf.split proposed
  · exact ⟨none, computeWith_of_eq h, by simp [h], by simp⟩
  · obtain ⟨p, a, m, b, hp, hcuts, htext⟩ := exists_cuts_computeWith h
    refine ⟨some p, hp, by simp [h], ?_⟩
    rintro q ⟨⟩
    refine ⟨⟨_, hcuts.extent_eq⟩, _, hcuts.apply_eq, ?_⟩
    rw [htext]
    have hfree : ∀ l ∈ LineBreak.lf.split proposed, e.Free l := by
      intro l hl
      refine LineBreak.free_of_no_lf (LineBreak.free_lf.mp (LineBreak.free_of_mem_split hl)) ?_
      intro he hmem
      exact hcr he (LineBreak.mem_of_mem_split hl hmem)
    exact LineBreak.split_join e (LineBreak.split_ne_nil _ _) hfree

theorem computeWith_reproduces_lines_cr :
    (LineBreak.cr = .cr → '\r' ∉ "é\n\nb".toList) ∧
      ∃ answer, computeWith "é\r\na\r".toList .cr "é\n\nb".toList = .ok answer ∧
        (answer = none ↔
          LineBreak.cr.split "é\r\na\r".toList = LineBreak.lf.split "é\n\nb".toList) ∧
        ∀ p, answer = some p → (∃ range, p.extent "é\r\na\r".toList .cr = .ok range) ∧
          ∃ patched, p.apply "é\r\na\r".toList .cr = .ok patched ∧
            LineBreak.cr.split patched = LineBreak.lf.split "é\n\nb".toList :=
  ⟨by decide, computeWith_reproduces_lines _ _ _ (by decide)⟩

end Patch
end SpriteConfig
