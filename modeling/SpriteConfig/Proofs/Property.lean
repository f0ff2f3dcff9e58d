import SpriteConfig.Proofs.Agreement
import SpriteConfig.Proofs.Valid
/-!
# A property that was written is read

A property is written on the line that a lookup finds, or else on a new one right after the subject.
The new line is nested deeper than the subject, so it is the first line that a lookup comes across.
-/
namespace SpriteConfig

open List (Forall₂)

/-- Whether new lines are nested deeper than their subjects. -/
structure Options.Nests (o : Options) : Prop extends o.Indents where
  indentUnit_ne_nil : o.indentUnit ≠ []
  tabIndentUnit_ne_nil : o.tabIndentUnit ≠ []

theorem Options.nests_default : ({} : Options).Nests :=
  ⟨Options.indents_default, by decide, by decide⟩

/-- A handle after a change that inserts a line or writes one anew. -/
def Handle.past (h : Handle) : Change → Handle
  | .insert after _ _ _ => h.moved after 1
  | .rewrite _ _ | .delete _ _ | .register _ _ => h

section Lines

variable {l l' : Line}

theorem exists_blockBelow_cons {level : Nat} (hd : l.isDefinition = true) (hlevel : level < l.level)
    (ls : List Line) :
    ∃ rest, blockBelow level (l :: ls) = l :: rest := by
  have hopen : l.closes level = false := by simp [Line.closes, hd, hlevel]
  have hnested : l.isNestedDeeper level = true := by simp [Line.isNestedDeeper, hd]
  rw [blockBelow, List.takeWhile_cons_of_pos (by simp [hopen]), dropTrailing]
  split
  · exact ⟨[], by simp [hnested]⟩
  · exact ⟨_, rfl⟩

theorem findDefinition?_directLines_cons (hd : l.isDefinition = true) (ls : List Line)
    (start : Nat) :
    findDefinition? l.definition (directLines none ((l :: ls).zipIdx start)) = some (l, start) := by
  have hfirst : directLines none ((l :: ls).zipIdx start) =
      (l, start) :: directLines (some l.level) (ls.zipIdx (start + 1)) := by
    rw [List.zipIdx_cons, directLines, hd]
    rfl
  rw [hfirst, findDefinition?, List.find?_cons_of_pos (by simp)]

theorem Line.level_make {indent name : Text} (hi : indent.IsIndentation) (hn : name ≠ [])
    (values : List Text) : (make indent name values).level = indent.length :=
  (reads_make hi hn values).level_eq

theorem Line.Shaped.length_indent (hs : l.Shaped) (hd : l.isDefinition = true) :
    l.indent.length = l.level := by
  obtain ⟨_, _, hr⟩ := hs hd
  rw [hr.indent_eq, hr.level_eq]

theorem forall₂_set {R : Line → Line → Prop} (hrefl : ∀ l, R l l) {ls : List Line} {n : Nat}
    (hl : ls[n]? = some l) (ha : R l l') : Forall₂ R ls (ls.set n l') := by
  induction ls generalizing n with
  | nil => exact .nil
  | cons m ls ih =>
    cases n with
    | zero => exact .cons (Option.some.inj hl ▸ ha) (List.forall₂_same.mpr fun m _ => hrefl m)
    | succ n => exact .cons (hrefl m) (ih hl)

end Lines

namespace Document

variable {d d' : Document} {h : Handle}

theorem Valid.defined (hv : d.Valid) {s : Subject} (hs : s ∈ d.registry.subjects) :
    s.handle.Defined d := by
  intro n hn
  obtain ⟨l, hl, hdef⟩ := hv.standing s hs n hn
  exact ⟨l, hl, Line.isDefinition_of_eq_token hdef⟩

theorem Valid.lt_indentBelow (hv : d.Valid) (ho : d.options.Nests) {n : Nat} {l : Line}
    (hl : d.lines[n]? = some l) (hd : l.isDefinition = true) {indent : Text}
    (hindent : d.indentBelow (.line n) = .ok indent) : l.level < indent.length := by
  rw [indentBelow, block_eq hl, Checked.ok_bind] at hindent
  dsimp only at hindent
  split at hindent
  · next child hchild =>
    have hmem := List.mem_of_find?_eq_some hchild
    have hcd : child.isDefinition = true := by simpa using List.find?_some hchild
    have hin : child ∈ d.lines :=
      List.mem_of_mem_drop ((prefix_blockBelow _ _).subset hmem)
    have hopen : child.closes l.level = false := by
      have hpre := (prefix_dropTrailing _ _).subset hmem
      simpa using List.all_eq_true.mp List.all_takeWhile _ hpre
    rw [← Except.ok.inj hindent, (hv.shaped child hin).length_indent hcd]
    simpa [Line.closes, hcd] using hopen
  · rw [line_eq hl, Checked.ok_bind] at hindent
    rw [← Except.ok.inj hindent, List.length_append, (hv.shaped_of_getElem? hl).length_indent hd]
    have hunit := List.length_pos_iff.mpr ho.indentUnit_ne_nil
    have htab := List.length_pos_iff.mpr ho.tabIndentUnit_ne_nil
    split <;> omega

theorem findDirect?_inserted (hh : h.Defined d) {indent name : Text} (hi : indent.IsIndentation)
    (hn : name ≠ []) (values : List Text)
    (hdeeper : ∀ n l, h = .line n → d.lines[n]? = some l → l.level < indent.length)
    (hlines : d'.lines =
      d.lines.take h.next ++ Line.make indent name values :: d.lines.drop h.next) :
    d'.findDirect? h name = .ok (some (Line.make indent name values, h.next)) := by
  have hdef := Line.make_definition indent name values
  have hd : (Line.make indent name values).isDefinition = true := Line.isDefinition_make hn values
  have hlevel := Line.level_make hi hn values
  cases h with
  | root =>
    have hfound := findDefinition?_directLines_cons hd d.lines 0
    have hall : d'.lines = Line.make indent name values :: d.lines := hlines
    rw [hdef, ← hall] at hfound
    exact congrArg Except.ok hfound
  | line n =>
    have hnext : (Handle.line n).next = n + 1 := rfl
    rw [hnext] at hlines ⊢
    obtain ⟨l, hl, -⟩ := hh n rfl
    have hlt := hh.inside n rfl
    have hget : d'.lines[n]? = some l := by
      have hkept := getElem?_inserted hlt (Line.make indent name values) n
      rwa [if_neg (Nat.not_succ_le_self n), ← hlines, hl] at hkept
    have hbelow : d'.lines.drop (n + 1) = Line.make indent name values :: d.lines.drop (n + 1) := by
      rw [hlines]
      exact List.drop_left' (by rw [List.length_take]; omega)
    have hnested : l.level < (Line.make indent name values).level :=
      hlevel ▸ hdeeper n l rfl hl
    obtain ⟨rest, hblock⟩ := exists_blockBelow_cons hd hnested (d.lines.drop (n + 1))
    have hfound := findDefinition?_directLines_cons hd rest (n + 1)
    rw [hdef] at hfound
    rw [findDirect?, directAt, block_eq hget, hbelow, hblock]
    exact congrArg Except.ok hfound

theorem findDirect?_rewritten (hh : h.Defined d) {name : Text} {l l' : Line} {n : Nat}
    (hfound : d.findDirect? h name = .ok (some (l, n))) {values : List Text}
    (hset : l.setParameters values = .ok l') (hlines : d'.lines = d.lines.set n l') :
    d'.findDirect? h name = .ok (some (l', n)) := by
  obtain ⟨hl, -, -⟩ := getElem?_of_findDirect? hh.inside hfound
  have hlt := (List.getElem?_eq_some_iff.mp hl).1
  have halike := Line.alike_setParameters hset
  have hinside : h.Inside d' := hh.inside.of_length_eq (by rw [hlines, List.length_set])
  have hall : Forall₂ Line.Alike d.lines d'.lines := hlines ▸ forall₂_set Line.Alike.refl hl halike
  obtain ⟨found, hfound', hrel⟩ := rel_findDirect? (fun h => h) hall hh hfound
  cases hrel with
  | @some _ y hab =>
    obtain ⟨m, k⟩ := y
    obtain ⟨-, rfl⟩ := hab
    obtain ⟨hm, -, -⟩ := getElem?_of_findDirect? hinside hfound'
    rw [hlines, List.getElem?_set_self hlt, Option.some.injEq] at hm
    rw [hfound', hm]

theorem direct?_eq {s : SubjectId} (hs : d.registry.handle? s = some h) {name : Text} {l : Line}
    {n : Nat} (hfound : d.findDirect? h name = .ok (some (l, n))) {values : List Text}
    (hl : l.parameters = .ok values) : d.direct? s name = .ok (some values) := by
  rw [direct?_of_handle? hs hfound, foundParameters, hl]
  rfl

theorem handle?_past {g : Handle} {s : SubjectId} (hs : d.registry.handle? s = some h) {name : Text}
    {values : List Text} {c : Change} (hc : d.writingOf g name values = .ok c)
    (hstep : d.Step c d') : d'.registry.handle? s = some (h.past c) := by
  rcases eq_of_writingOf hc with ⟨indent, rfl⟩ | ⟨_, n, -, rfl⟩
  · cases hstep with
    | insert hle => exact Registry.handle?_shiftAfter hs g
  · cases hstep with
    | rewrite hl hset => exact hs

theorem past_of_writingOf {name : Text} {values : List Text} {c : Change}
    (hc : d.writingOf h name values = .ok c) : h.past c = h := by
  rcases eq_of_writingOf hc with ⟨indent, rfl⟩ | ⟨_, n, -, rfl⟩
  · exact h.moved_self
  · rfl

theorem handle?_of_writingOf {s : SubjectId} (hs : d.registry.handle? s = some h) {name : Text}
    {values : List Text} {c : Change} (hc : d.writingOf h name values = .ok c)
    (hstep : d.Step c d') : d'.registry.handle? s = some h := by
  rw [handle?_past hs hc hstep, past_of_writingOf hc]

theorem writeProperty_eq_of_step {s : SubjectId} (hs : d.registry.handle? s = some h) {name : Text}
    {values : List Text} {c : Change} (hc : d.writingOf h name values = .ok c)
    (hstep : d.Step c d') : d.writeProperty s name values = .ok (d', true) := by
  rw [writeProperty_of_handle? hs, hc, Checked.ok_bind, hstep.change_eq]
  rfl

theorem writingOf_of_indentBelow {name indent : Text} (hnone : d.findDirect? h name = .ok none)
    (hindent : d.indentBelow h = .ok indent) (values : List Text) :
    d.writingOf h name values = .ok (.insert h indent name values) := by
  rw [writingOf, hnone, Checked.ok_bind]
  dsimp only
  rw [additionOf, hindent]
  rfl

theorem Valid.exists_insertion (hv : d.Valid) (ho : d.options.Nests) (hh : h.Defined d)
    {name : Text} (hnone : d.findDirect? h name = .ok none) :
    ∃ indent, d.indentBelow h = .ok indent ∧ indent.IsIndentation ∧
      (∀ n l, h = .line n → d.lines[n]? = some l → l.level < indent.length) ∧
      ∀ values, d.writingOf h name values = .ok (.insert h indent name values) := by
  obtain ⟨indent, hindent, hi⟩ := hv.exists_indentBelow hh.inside
  refine ⟨indent, hindent, hi, ?_, fun values => ?_⟩
  · rintro n l rfl hl
    obtain ⟨l', hl', hd⟩ := hh n rfl
    obtain rfl : l = l' := Option.some.inj (hl.symm.trans hl')
    exact hv.lt_indentBelow ho hl hd hindent
  · exact writingOf_of_indentBelow hnone hindent values

theorem writingOf_of_findDirect? {name : Text} {l : Line} {n : Nat}
    (hfound : d.findDirect? h name = .ok (some (l, n))) (values : List Text) :
    d.writingOf h name values = .ok (.rewrite n values) := by
  rw [writingOf, hfound]
  rfl

theorem set_inserted {α : Type} {ls : List α} {i : Nat} (h : i ≤ ls.length) (a b : α) :
    (ls.take i ++ a :: ls.drop i).set i b = ls.take i ++ b :: ls.drop i := by
  have hlen : (ls.take i).length = i := by simp [h]
  rw [List.set_append_right _ _ hlen.le, hlen, Nat.sub_self, List.set_cons_zero]

theorem Step.rewrite_of_eq {n : Nat} {values : List Text} {l l' : Line} (hl : d.lines[n]? = some l)
    (hset : l.setParameters values = .ok l') (hd' : d' = { d with lines := d.lines.set n l' }) :
    d.Step (.rewrite n values) d' :=
  hd' ▸ .rewrite hl hset

/-- A property that was written is found on a line with its parameters. To write it anew on that
line is to write it in the first place. -/
theorem Valid.exists_written (hv : d.Valid) (ho : d.options.Nests) (hh : h.Defined d) {name : Text}
    (hn : name ≠ []) (values : List Text) :
    ∃ c d' l n, d.writingOf h name values = .ok c ∧ c.Fits d ∧ d.Step c d' ∧
      d'.findDirect? h name = .ok (some (l, n)) ∧ l.parameters = .ok values ∧
      ∀ later, ∃ c' d'', d.writingOf h name later = .ok c' ∧ d.Step c' d'' ∧
        d'.Step (.rewrite n later) d'' := by
  obtain ⟨found, hfound, hat⟩ := exists_findDirect? hh.inside name
  cases found with
  | none =>
    obtain ⟨indent, -, hi, hdeeper, hwriting⟩ := hv.exists_insertion ho hh hfound
    have hle := hh.inside.next_le
    refine ⟨_, _, Line.make indent name values, h.next, hwriting values, hi, .insert hle,
      findDirect?_inserted hh hi hn values hdeeper rfl, Line.parameters_make hi hn values,
      fun later => ⟨_, _, hwriting later, .insert hle, ?_⟩⟩
    have hget := getElem?_inserted_self hle (Line.make indent name values)
    have hmake := Line.setParameters_make hi hn values later
    exact .rewrite_of_eq hget hmake (by rw [set_inserted hle])
  | some p =>
    obtain ⟨l, n⟩ := p
    obtain ⟨hl, hd, -⟩ := hat l n rfl
    have hlt := (List.getElem?_eq_some_iff.mp hl).1
    have hshaped := hv.shaped_of_getElem? hl
    obtain ⟨l', hset, -, -⟩ := hshaped.exists_setParameters values
    refine ⟨_, _, l', n, writingOf_of_findDirect? hfound values, trivial, .rewrite hl hset,
      findDirect?_rewritten hh hfound hset rfl, hshaped.parameters_setParameters hd hset,
      fun later => ?_⟩
    obtain ⟨l'', hset', -, -⟩ := hshaped.exists_setParameters later
    refine ⟨_, _, writingOf_of_findDirect? hfound later, .rewrite hl hset', ?_⟩
    have hget := List.getElem?_set_self (a := l') hlt
    have hagain := (hshaped.setParameters_setParameters hset later).trans hset'
    exact .rewrite_of_eq hget hagain (by rw [List.set_set])

/-- A property that was written is read. -/
theorem Valid.exists_writeProperty (hv : d.Valid) (ho : d.options.Nests) {s : SubjectId}
    (hs : d.registry.handle? s = some h) (hh : h.Defined d) {name : Text} (hn : name ≠ [])
    (values : List Text) :
    ∃ c d', d.writeProperty s name values = .ok (d', true) ∧ d.writingOf h name values = .ok c ∧
      c.Fits d ∧ d.Step c d' ∧ d'.direct? s name = .ok (some values) := by
  obtain ⟨c, d', l, n, hc, hfits, hstep, hfound, hl, -⟩ := hv.exists_written ho hh hn values
  exact ⟨c, d', writeProperty_eq_of_step hs hc hstep, hc, hfits, hstep,
    direct?_eq (handle?_of_writingOf hs hc hstep) hfound hl⟩

end Document
end SpriteConfig
