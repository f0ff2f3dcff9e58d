import Mathlib.Data.Prod.Lex
import SpriteConfig.Proofs.Patch
/-!
# Positions and offsets

The first characters of a text end at a position, and with more of them the position moves on: in
its line, or to a later line. A position that lies in a text is the end of as many characters as its
offset counts. So offsets tell positions apart, and are ordered as positions are: by line, and in a
line by column. Between the two halves of a pair the first characters end behind the end of a line,
where the text has no position.
-/
namespace SpriteConfig

namespace LineBreak

theorem split_ended_append {e : LineBreak} {ls : List Text} (h : ∀ l ∈ ls, e.Free l) (t : Text) :
    e.split (e.ended ls ++ t) = ls ++ e.split t := by
  induction ls with
  | nil => rfl
  | cons l ls ih =>
    have hl := h l List.mem_cons_self
    have hls := ih fun k hk => h k (List.mem_cons_of_mem _ hk)
    rw [ended_cons, List.append_assoc, split_line hl, hls, List.cons_append]

theorem exists_ended_append (e : LineBreak) (t : Text) :
    ∃ ls l, t = e.ended ls ++ l ∧ (∀ k ∈ ls, e.Free k) ∧ e.Free l := by
  have hne := split_ne_nil e t
  refine ⟨(e.split t).dropLast, (e.split t).getLast hne, ?_, ?_, ?_⟩
  · have hjoin := join_append_ended e (e.split t).dropLast
      (List.cons_ne_nil ((e.split t).getLast hne) [])
    rw [List.dropLast_append_getLast, join_split] at hjoin
    exact hjoin
  · intro k hk
    exact free_of_mem_split (List.mem_of_mem_dropLast hk)
  · exact free_of_mem_split (List.getLast_mem hne)

end LineBreak

namespace Position

/-- Positions are ordered by line, and in a line by column. -/
def key (p : Position) : ℕ ×ₗ ℕ := toLex (p.line, p.column)

theorem key_lt_key {p q : Position} :
    p.key < q.key ↔ p.line < q.line ∨ p.line = q.line ∧ p.column < q.column :=
  Prod.Lex.toLex_lt_toLex

/-- Whether a text has a position: one of its lines, and no more columns than the line is long. -/
def Valid (p : Position) (t : Text) (e : LineBreak) : Prop :=
  ∃ line, (e.split t)[p.line]? = some line ∧ p.column ≤ line.length

/-- Whether the first `k` characters of a text end at a position: they make up the lines before its
line, and as many characters of that line as its column says. -/
structure EndsAfter (p : Position) (t : Text) (e : LineBreak) (k : Nat) : Prop where
  le_length : k ≤ t.length
  length_eq : (e.split (t.take k)).length = p.line + 1
  column_eq : (e.split (t.take k)).getLast?.map List.length = some p.column

def textEnd (e : LineBreak) (t : Text) : Position :=
  ⟨(e.split t).length - 1, ((e.split t).getLast?.getD []).length⟩

theorem textEnd_of_free {e : LineBreak} {l : Text} (h : e.Free l) : textEnd e l = ⟨0, l.length⟩ := by
  simp [textEnd, LineBreak.split_free h]

theorem line_textEnd_pos {e : LineBreak} {t : Text} (h : ¬ e.Free t) : 0 < (textEnd e t).line := by
  have hlength : (e.split t).length ≠ 1 := by
    intro hone
    obtain ⟨l, hl⟩ := List.length_eq_one_iff.mp hone
    have ht : t = l := by simpa [hl, Text.join] using (LineBreak.join_split e t).symm
    have hmem : l ∈ e.split t := by simp [hl]
    rw [ht] at h
    exact h (LineBreak.free_of_mem_split hmem)
  have hpos := List.length_pos_iff.mpr (LineBreak.split_ne_nil e t)
  simp only [textEnd]
  omega

theorem textEnd_ended_append {e : LineBreak} {ls : List Text} (h : ∀ l ∈ ls, e.Free l) (t : Text) :
    textEnd e (e.ended ls ++ t) = ⟨ls.length + (textEnd e t).line, (textEnd e t).column⟩ := by
  have hne := LineBreak.split_ne_nil e t
  have hpos := List.length_pos_iff.mpr hne
  have hlast : (ls ++ e.split t).getLast? = (e.split t).getLast? := by
    rw [List.getLast?_append_of_ne_nil _ hne]
  simp only [textEnd, LineBreak.split_ended_append h, hlast, List.length_append]
  congr 1
  omega

theorem key_textEnd_lt (e : LineBreak) (t : Text) {u : Text} (hu : u ≠ []) :
    (textEnd e t).key < (textEnd e (t ++ u)).key := by
  obtain ⟨ls, l, rfl, hls, hl⟩ := LineBreak.exists_ended_append e t
  rw [List.append_assoc, textEnd_ended_append hls, textEnd_ended_append hls, textEnd_of_free hl,
    key_lt_key]
  by_cases hfree : e.Free (l ++ u)
  · have hlength := List.length_pos_iff.mpr hu
    rw [textEnd_of_free hfree, List.length_append]
    right
    exact ⟨rfl, Nat.lt_add_of_pos_right hlength⟩
  · have hline := line_textEnd_pos hfree
    left
    show ls.length + 0 < ls.length + (textEnd e (l ++ u)).line
    omega

theorem strictMonoOn_key_textEnd (e : LineBreak) (t : Text) :
    StrictMonoOn (fun k => (textEnd e (t.take k)).key) {k | k ≤ t.length} := by
  intro i _ j hj hij
  have htake := take_eq_append_drop t (Nat.le_of_lt hij)
  have hmore : (t.take j).drop i ≠ [] := by
    have hlength : j ≤ t.length := hj
    rw [ne_eq, List.drop_eq_nil_iff, List.length_take]
    omega
  show (textEnd e (t.take i)).key < (textEnd e (t.take j)).key
  rw [htake]
  exact key_textEnd_lt e (t.take i) hmore

theorem endsAfter_iff {p : Position} {t : Text} {e : LineBreak} {k : Nat} :
    p.EndsAfter t e k ↔ k ≤ t.length ∧ textEnd e (t.take k) = p := by
  have hne := LineBreak.split_ne_nil e (t.take k)
  constructor
  · intro h
    refine ⟨h.le_length, ?_⟩
    have hcolumn := h.column_eq
    rw [List.getLast?_eq_some_getLast hne, Option.map_some, Option.some.injEq] at hcolumn
    rw [textEnd, h.length_eq, List.getLast?_eq_some_getLast hne, Option.getD_some, hcolumn]
    rfl
  · rintro ⟨hk, rfl⟩
    refine ⟨hk, ?_, ?_⟩
    · exact (Nat.sub_add_cancel (List.length_pos_iff.mpr hne)).symm
    · rw [textEnd, List.getLast?_eq_some_getLast hne]
      rfl

section

variable {p q : Position} {t : Text} {e : LineBreak} {i j : Nat}

/-- Positions that the first characters of a text end at are ordered as the numbers of characters
are. -/
theorem EndsAfter.key_lt_key_iff (hp : p.EndsAfter t e i) (hq : q.EndsAfter t e j) :
    p.key < q.key ↔ i < j := by
  obtain ⟨hi, rfl⟩ := endsAfter_iff.mp hp
  obtain ⟨hj, rfl⟩ := endsAfter_iff.mp hq
  exact (strictMonoOn_key_textEnd e t).lt_iff_lt hi hj

theorem EndsAfter.key_le_key_iff (hp : p.EndsAfter t e i) (hq : q.EndsAfter t e j) :
    p.key ≤ q.key ↔ i ≤ j := by
  rw [← not_lt, hq.key_lt_key_iff hp, not_lt]

theorem EndsAfter.eq_iff (hp : p.EndsAfter t e i) (hq : q.EndsAfter t e j) : p = q ↔ i = j := by
  obtain ⟨hi, rfl⟩ := endsAfter_iff.mp hp
  obtain ⟨hj, rfl⟩ := endsAfter_iff.mp hq
  constructor
  · intro h
    exact (strictMonoOn_key_textEnd e t).injOn hi hj (congrArg key h)
  · rintro rfl
    rfl

theorem valid_iff : p.Valid t e ↔ ∃ k, p.offset? (e.split t) e.text.length = some k := by
  simp only [offset?_eq_some_iff]
  constructor
  · rintro ⟨line, hline, hcolumn⟩
    exact ⟨_, line, hline, hcolumn, rfl⟩
  · rintro ⟨_, line, hline, hcolumn, -⟩
    exact ⟨line, hline, hcolumn⟩

theorem endsAfter_of_offset? (h : p.offset? (e.split t) e.text.length = some i) :
    p.EndsAfter t e i := by
  obtain ⟨line, hline, hcolumn, hi⟩ := (offset?_eq_some_iff e).mp h
  obtain ⟨rest, ht⟩ := exists_eq_ended_append hline
  obtain ⟨hlt, -⟩ := List.getElem?_eq_some_iff.mp hline
  have hbefore : ∀ l ∈ (e.split t).take p.line, e.Free l := by
    intro l hl
    exact LineBreak.free_of_mem_split (List.mem_of_mem_take hl)
  have hfree : e.Free (line.take p.column) := by
    intro hbreak
    have hwhole := hbreak.trans (List.take_prefix p.column line).isInfix
    exact LineBreak.free_of_mem_split (List.mem_of_getElem? hline) hwhole
  have htake : t.take i = e.ended ((e.split t).take p.line) ++ line.take p.column := by
    calc t.take i = (e.ended ((e.split t).take p.line) ++ (line ++ rest)).take i :=
          congrArg (List.take i) ht
      _ = e.ended ((e.split t).take p.line) ++ line.take p.column := by
          rw [hi, List.take_length_add_append, List.take_append_of_le_length hcolumn]
  refine endsAfter_iff.mpr ⟨offset?_le h, ?_⟩
  rw [htake, textEnd_ended_append hbefore, textEnd_of_free hfree,
    List.length_take_of_le (Nat.le_of_lt hlt), List.length_take_of_le hcolumn]
  rfl

end

/-- Positions and offsets correspond. A text has a position exactly if the position has an offset;
the offset is the only number of characters that ends there; it tells the position apart from others
and is ordered as they are. So a patch has an extent exactly if its text has both of its positions
and the first does not come after the second, and the extent lies in the text. -/
theorem offsets_correspond (t : Text) (e : LineBreak) :
    (∀ p : Position, p.Valid t e ↔ ∃ k, p.offset? (e.split t) e.text.length = some k) ∧
      (∀ (p : Position) (k : Nat), p.offset? (e.split t) e.text.length = some k →
        ∀ k', p.EndsAfter t e k' ↔ k' = k) ∧
      (∀ (p q : Position) (i j : Nat), p.offset? (e.split t) e.text.length = some i →
        q.offset? (e.split t) e.text.length = some j →
          (p = q ↔ i = j) ∧ (p.key < q.key ↔ i < j)) ∧
      ∀ p : Patch,
        ((∃ start stop, p.extent t e = .ok (start, stop)) ↔
          p.start.Valid t e ∧ p.stop.Valid t e ∧ p.start.key ≤ p.stop.key) ∧
        ∀ start stop, p.extent t e = .ok (start, stop) →
          p.start.offset? (e.split t) e.text.length = some start ∧
            p.stop.offset? (e.split t) e.text.length = some stop ∧ stop ≤ t.length := by
  refine ⟨fun p => valid_iff, ?_, ?_, fun p => ⟨?_, ?_⟩⟩
  · intro p k h k'
    have hk := endsAfter_of_offset? h
    constructor
    · intro hk'
      exact (hk'.eq_iff hk).mp rfl
    · rintro rfl
      exact hk
  · intro p q i j hp hq
    have hi := endsAfter_of_offset? hp
    have hj := endsAfter_of_offset? hq
    exact ⟨hi.eq_iff hj, hi.key_lt_key_iff hj⟩
  · rw [valid_iff, valid_iff]
    simp only [Patch.extent_eq_ok_iff]
    constructor
    · rintro ⟨start, stop, hstart, hstop, hle⟩
      have hkey := (endsAfter_of_offset? hstart).key_le_key_iff (endsAfter_of_offset? hstop)
      exact ⟨⟨start, hstart⟩, ⟨stop, hstop⟩, hkey.mpr hle⟩
    · rintro ⟨⟨start, hstart⟩, ⟨stop, hstop⟩, hle⟩
      have hkey := (endsAfter_of_offset? hstart).key_le_key_iff (endsAfter_of_offset? hstop)
      exact ⟨start, stop, hstart, hstop, hkey.mp hle⟩
  · intro start stop h
    obtain ⟨hstart, hstop, -⟩ := Patch.extent_eq_ok_iff.mp h
    exact ⟨hstart, hstop, offset?_le hstop⟩

/-- Halves of a pair at the end of a line and at the start of the next one belong to the lines. -/
theorem offsets_correspond_stray_halves :
    let t := "a\r\r\n\né".toList
    let p : Position := ⟨0, 2⟩
    let q : Position := ⟨1, 1⟩
    p.Valid t .crlf ∧ q.Valid t .crlf ∧
      p.offset? (LineBreak.crlf.split t) LineBreak.crlf.text.length = some 2 ∧
      q.offset? (LineBreak.crlf.split t) LineBreak.crlf.text.length = some 5 ∧
      (∀ k, p.EndsAfter t .crlf k ↔ k = 2) ∧ (∀ k, q.EndsAfter t .crlf k ↔ k = 5) ∧
      p.key < q.key ∧ ∃ start stop, (⟨p, q, []⟩ : Patch).extent t .crlf = .ok (start, stop) := by
  intro t p q
  obtain ⟨hvalid, hends, horder, hextent⟩ := offsets_correspond t .crlf
  have hp : p.offset? (LineBreak.crlf.split t) LineBreak.crlf.text.length = some 2 := by decide
  have hq : q.offset? (LineBreak.crlf.split t) LineBreak.crlf.text.length = some 5 := by decide
  have hkey := (horder p q 2 5 hp hq).2.mpr (by decide)
  have hpv := (hvalid p).mpr ⟨2, hp⟩
  have hqv := (hvalid q).mpr ⟨5, hq⟩
  exact ⟨hpv, hqv, hp, hq, hends p 2 hp, hends q 5 hq, hkey,
    (hextent ⟨p, q, []⟩).1.mpr ⟨hpv, hqv, le_of_lt hkey⟩⟩

end Position
end SpriteConfig
