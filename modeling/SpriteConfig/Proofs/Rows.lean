import Mathlib.Data.List.Flatten
import Mathlib.Data.List.Perm.Basic
import SpriteConfig.Proofs.Line
/-!
# The rows of a text

A line stands in one row of the text that is written of a document, and in one more for each line
feed that it holds. The text determines the rows, and so it tells lines apart that have different
ones.
-/
namespace SpriteConfig
namespace Text

theorem length_split (c : Char) (t : Text) : (split c t).length = t.count c + 1 := by
  induction t with
  | nil => rfl
  | cons a t ih =>
    rw [split]
    split
    · next h => rw [List.length_cons, ih, h, List.count_cons_self]
    · next h => rw [List.length_modifyHead, ih, List.count_cons_of_ne h]

theorem split_inj {c : Char} {s t : Text} : split c s = split c t ↔ s = t := by
  refine ⟨fun h => ?_, congrArg _⟩
  rw [← join_split c s, h, join_split]

end Text

def Line.rows (l : Line) : List Text := Text.split '\n' l.text

def rows (ls : List Line) : List Text := ls.flatMap Line.rows

namespace Line

variable {l l' : Line}

theorem rows_inj : l.rows = l'.rows ↔ l.text = l'.text := Text.split_inj

theorem length_rows (l : Line) : l.rows.length = l.text.count '\n' + 1 := Text.length_split _ _

theorem rows_eq_singleton (h : '\n' ∉ l.text) : l.rows = [l.text] :=
  LineBreak.split_free (LineBreak.free_lf.mpr h)

theorem count_tail_le {values : List Text} {comment : Option Text} {rest : Text}
    (hvalues : ∀ v ∈ values, '\n' ∉ v) (hcomment : ∀ k, comment = some k → k <:+ rest) :
    (tail values comment).count '\n' ≤ rest.count '\n' := by
  have hformat : '\n' ∉ Parameters.format values := by
    intro hmem
    rcases Parameters.mem_format hmem with h | h | ⟨v, hv, h⟩
    · cases h
    · cases h
    · exact hvalues v hv h
  have hempty :
      (if values.isEmpty then [] else ' ' :: Parameters.format values).count '\n' = 0 := by
    split
    · rfl
    · rw [List.count_cons_of_ne (by decide), List.count_eq_zero.mpr hformat]
  refine (Nat.le_of_eq (List.count_append ..)).trans ?_
  rw [hempty, Nat.zero_add]
  cases comment with
  | none => exact Nat.zero_le _
  | some k =>
    rw [List.count_cons_of_ne (by decide)]
    exact (hcomment k rfl).sublist.count_le '\n'

theorem Shaped.length_rows_setParameters_le (hs : l.Shaped) {values : List Text}
    (hset : l.setParameters values = .ok l') (hvalues : ∀ v ∈ values, '\n' ∉ v) :
    l'.rows.length ≤ l.rows.length := by
  cases hd : l.isDefinition with
  | false =>
    rw [setParameters_of_not_isDefinition hd, Except.ok.injEq] at hset
    rw [hset]
  | true =>
    obtain ⟨indent, rest, hr⟩ := hs hd
    rw [hr.setParameters_eq hd, Except.ok.injEq] at hset
    generalize hk : (Parameters.splitComment (Text.trimStart rest)).2 = comment at hset
    have htext := (hr.withParameters values comment).text_eq
    have hcomment : ∀ k, comment = some k → k <:+ rest := fun k hsome =>
      (Parameters.suffix_of_comment (hk.trans hsome)).trans (List.dropWhile_suffix _)
    have hle := count_tail_le hvalues hcomment
    have hdefinition : l'.definition = l.definition := hset ▸ rfl
    rw [hset, hdefinition] at htext
    simp only [length_rows, htext, hr.text_eq, List.count_append]
    omega

end Line

variable {ls ls' : List Line} {l l' : Line} {n : Nat}

theorem rows_append (ls ms : List Line) : rows (ls ++ ms) = rows ls ++ rows ms :=
  List.flatMap_append

theorem rows_cons (l : Line) (ls : List Line) : rows (l :: ls) = l.rows ++ rows ls :=
  List.flatMap_cons

theorem split_writeSource_eq_rows (hne : ls ≠ []) :
    Text.split '\n' (writeSource ls) = rows ls := by
  induction ls with
  | nil => exact absurd rfl hne
  | cons l ls ih =>
    cases ls with
    | nil => simp [writeSource, rows, Line.rows, Text.join]
    | cons m ms =>
      have hms := ih (List.cons_ne_nil m ms)
      rw [writeSource, List.map_cons, Text.join_cons _ _ (by simp), List.append_assoc,
        List.singleton_append, Text.split_append_cons, rows_cons, ← hms]
      rfl

theorem rows_eq_of_writeSource_eq (hl : l ∈ ls) (ht : l.text ≠ [])
    (h : writeSource ls' = writeSource ls) : rows ls' = rows ls := by
  have hne : ls ≠ [] := List.ne_nil_of_mem hl
  by_cases hne' : ls' = []
  · subst hne'
    obtain ⟨c, hc⟩ := List.exists_mem_of_ne_nil _ ht
    have hmem : c ∈ writeSource ls := Text.mem_join_of_mem (List.mem_map_of_mem hl) hc
    rw [← h] at hmem
    cases hmem
  · rw [← split_writeSource_eq_rows hne', h, split_writeSource_eq_rows hne]

theorem eq_append_of_getElem? (hl : ls[n]? = some l) : ls = ls.take n ++ l :: ls.drop (n + 1) := by
  obtain ⟨hlt, rfl⟩ := List.getElem?_eq_some_iff.mp hl
  rw [List.getElem_cons_drop, List.take_append_drop]

theorem rows_eq_of_getElem? (hl : ls[n]? = some l) :
    rows ls = rows (ls.take n) ++ (l.rows ++ rows (ls.drop (n + 1))) := by
  rw [← rows_cons, ← rows_append, ← eq_append_of_getElem? hl]

theorem rows_set (hl : ls[n]? = some l) (l' : Line) :
    rows (ls.set n l') = rows (ls.take n) ++ (l'.rows ++ rows (ls.drop (n + 1))) := by
  have hlt := (List.getElem?_eq_some_iff.mp hl).1
  rw [List.set_eq_take_append_cons_drop, if_pos hlt, rows_append, rows_cons]

theorem perm_rows_insert (i : Nat) (new : Line) (ls : List Line) :
    (rows (ls.take i ++ new :: ls.drop i)).Perm (new.rows ++ rows ls) := by
  rw [← rows_cons]
  refine List.Perm.flatMap_right _ (List.perm_middle.trans ?_)
  rw [List.take_append_drop]

theorem perm_rows_delete (hl : ls[n]? = some l) :
    (rows ls).Perm (l.rows ++ rows (ls.take n ++ ls.drop (n + 1))) := by
  rw [rows_eq_of_getElem? hl, rows_append]
  exact List.perm_append_comm_assoc _ _ _

/-- Where a line of one row comes and another line goes, and the rows stay the same, the two lines
have the same text. -/
theorem text_eq_of_rows_eq {i q : Nat} {new old : Line} (hnew : '\n' ∉ new.text)
    (hls' : ls' = ls.take i ++ new :: ls.drop i) (hold : ls'[q]? = some old)
    (hrows : rows (ls'.take q ++ ls'.drop (q + 1)) = rows ls) : old.text = new.text := by
  have hinsert := perm_rows_insert i new ls
  have hdelete := perm_rows_delete hold
  rw [hrows] at hdelete
  have hperm : (old.rows ++ rows ls).Perm (new.rows ++ rows ls) :=
    hdelete.symm.trans (hls' ▸ hinsert)
  have hsame := (List.perm_append_right_iff _).mp hperm
  rw [Line.rows_eq_singleton hnew] at hsame
  rw [← Line.rows_inj, List.perm_singleton.mp hsame, Line.rows_eq_singleton hnew]

theorem length_rows_delete_lt {start stop : Nat} (hlt : start < stop) (hstop : stop ≤ ls.length) :
    (rows (ls.take start ++ ls.drop stop)).length < (rows ls).length := by
  have hrest : (ls.drop stop).Sublist (ls.drop (start + 1)) := List.drop_sublist_drop_left ls hlt
  have hle := (((List.Sublist.refl (ls.take start)).append hrest).flatMap Line.rows).length_le
  have hperm := (perm_rows_delete (List.getElem?_eq_getElem (hlt.trans_le hstop))).length_eq
  rw [List.length_append, Line.length_rows] at hperm
  simp only [rows] at hperm ⊢
  omega

theorem length_rows_set_le (hl : ls[n]? = some l) (hle : l'.rows.length ≤ l.rows.length) :
    (rows (ls.set n l')).length ≤ (rows ls).length := by
  rw [rows_set hl, rows_eq_of_getElem? hl]
  simp only [List.length_append]
  omega

theorem rows_set_ne (hl : ls[n]? = some l) (ht : l'.text ≠ l.text) :
    rows (ls.set n l') ≠ rows ls := by
  intro h
  rw [rows_set hl, rows_eq_of_getElem? hl] at h
  exact ht (Line.rows_inj.mp (List.append_cancel_right (List.append_cancel_left h)))

end SpriteConfig
