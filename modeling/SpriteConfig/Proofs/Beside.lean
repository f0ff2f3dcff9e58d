import SpriteConfig.Proofs.Frame
/-!
# Writing beside another subject

A subject writes a property on the line that its lookup finds, or else on a new line, which is
indented as the first definition of its block. Neither depends on what another subject writes: a new
line of the other one is not direct for this one, and a line of the other one that is written anew
keeps its level and its indentation. So a subject makes the same change before and after, of lines
that have moved along.
-/
namespace SpriteConfig

open List (Forall₂)

section Lines

variable {R : Line → Line → Prop} {ls ms : List Line}

theorem head?_directLines (ls : List Line) (start : Nat) :
    (directLines none (ls.zipIdx start)).head?.map Prod.fst = ls.find? Line.isDefinition := by
  induction ls generalizing start with
  | nil => rfl
  | cons l ls ih =>
    rw [List.zipIdx_cons, directLines]
    cases hd : l.isDefinition with
    | false =>
      rw [List.find?_cons_of_neg (by simp [hd])]
      exact ih (start + 1)
    | true =>
      rw [List.find?_cons_of_pos hd]
      rfl

theorem rel_find?_isDefinition (hR : ∀ {l m}, R l m → l.Alike m) (h : Forall₂ R ls ms) :
    Option.Rel R (ls.find? Line.isDefinition) (ms.find? Line.isDefinition) := by
  induction h with
  | nil => exact .none
  | @cons l m ls ms hab _ ih =>
    rw [List.find?_cons, List.find?_cons, ← (hR hab).isDefinition_eq]
    cases l.isDefinition with
    | false => exact ih
    | true => exact .some hab

end Lines

/-- The number of a line after a change that inserts a line or writes one anew. -/
def Change.shift : Change → Nat → Nat
  | .insert after _ _ _, n => shiftFrom after.next n
  | .rewrite _ _, n | .delete _ _, n | .register _ _, n => n

/-- A change that inserts a line or writes one anew, as it is made after the change `e` of the same
sort. -/
def Change.past (e : Change) : Change → Change
  | .insert h indent name values => .insert (h.past e) indent name values
  | .rewrite n values => .rewrite (e.shift n) values
  | .delete start stop => .delete start stop
  | .register n input => .register n input

theorem Change.past_rewrite (n : Nat) (values : List Text) (c : Change) :
    (Change.rewrite n values).past c = c := by
  cases c <;> rfl

namespace Document

variable {d d' : Document} {g h after : Handle} {name indent : Text} {values : List Text}
  {new own own' l l' : Line} {n n' k : Nat} {found : Option (Line × Nat)} {c e : Change}

theorem indentBelow_congr (hown : d.lines[n]? = some own) (hown' : d'.lines[n']? = some own')
    (hoptions : d'.options = d.options) (hindent : own'.indent = own.indent)
    (hchild :
      ((blockBelow own'.level (d'.lines.drop (n' + 1))).find? Line.isDefinition).map Line.indent =
        ((blockBelow own.level (d.lines.drop (n + 1))).find? Line.isDefinition).map Line.indent) :
    d'.indentBelow (.line n') = d.indentBelow (.line n) := by
  simp only [indentBelow, block_eq hown, block_eq hown', Checked.ok_bind, line_eq hown,
    line_eq hown', hindent, hoptions]
  cases hfirst : (blockBelow own.level (d.lines.drop (n + 1))).find? Line.isDefinition with
  | none =>
    rw [hfirst, Option.map_none, Option.map_eq_none_iff] at hchild
    rw [hchild]
  | some child =>
    rw [hfirst, Option.map_some, Option.map_eq_some_iff] at hchild
    obtain ⟨child', hfirst', heq⟩ := hchild
    rw [hfirst']
    exact congrArg Except.ok heq

section Inserting

/-- Whether a line has been inserted right after a handle so that the subject at another handle has
the same direct lines as before. -/
structure Unseen (d d' : Document) (after h : Handle) (new : Line) : Prop where
  inserted : InsertedAt d.lines d'.lines after.next new
  level_le : ∀ i l, DirectLine d.lines h i l → h.next ≤ after.next → after.next ≤ i →
    l.level ≤ new.level
  not_directLine : ¬ DirectLine d'.lines (h.moved after 1) after.next new

theorem InsertedBelow.unseen (hnew : d.InsertedBelow d' n own new) (hne : h ≠ .line n) :
    d.Unseen d' (.line n) h new :=
  ⟨hnew.inserted, fun _ _ hl hle hi => hnew.level_le hl hle hi, hnew.not_directLine hne⟩

theorem unseen_of_root (hnew : InsertedAt d.lines d'.lines 0 new) (hne : h ≠ .root) :
    d.Unseen d' .root h new := by
  cases h with
  | root => exact absurd rfl hne
  | line n =>
    refine ⟨hnew, fun i l _ hle _ => absurd hle (Nat.not_succ_le_zero n), fun hl => ?_⟩
    have hle := Handle.moved_next_le_next_iff.mp hl.next_le
    exact absurd hle (Nat.not_succ_le_zero n)

theorem Unseen.directAt_eq (hnew : d.Unseen d' after h new) (hh : h.Inside d)
    {xs : List (Line × Nat)} (hxs : d.directAt h = .ok xs) :
    d'.directAt (h.moved after 1) = .ok (xs.map fun x => (x.1, shiftFrom after.next x.2)) := by
  apply directAt_of_inserted hnew.inserted hh _ hnew.not_directLine hxs
  intro i l
  rw [hnew.inserted.directLine_shiftFrom_iff, and_iff_left_iff_imp]
  intro hl hle hi _
  exact hnew.level_le i l hl hle hi

theorem Unseen.findDirect?_eq (hnew : d.Unseen d' after h new) (hh : h.Inside d)
    (hfound : d.findDirect? h name = .ok found) :
    d'.findDirect? (h.moved after 1) name =
      .ok (found.map fun x => (x.1, shiftFrom after.next x.2)) :=
  findDirect?_of_inserted hnew.inserted hh hnew.level_le (fun _ => hnew.not_directLine) hfound

theorem Unseen.indentBelow_eq (hnew : d.Unseen d' after h new) (hh : h.Inside d)
    (hoptions : d'.options = d.options) :
    d'.indentBelow (h.moved after 1) = d.indentBelow h := by
  cases h with
  | root => rfl
  | line n =>
    have hown := List.getElem?_eq_getElem (hh n rfl)
    have hown' := (hnew.inserted.getElem?_shiftFrom n).trans hown
    have hdirect := hnew.directAt_eq hh (by rw [directAt, block_eq hown]; rfl)
    rw [Handle.moved_line_eq] at hdirect ⊢
    rw [directAt, block_eq hown'] at hdirect
    have hfirst := congrArg List.head? (Except.ok.inj hdirect)
    apply indentBelow_congr hown hown' hoptions rfl
    rw [← head?_directLines _ (shiftFrom after.next n + 1), ← head?_directLines _ (n + 1), hfirst,
      List.head?_map, Option.map_map, Option.map_map, Option.map_map]
    rfl

theorem Unseen.writingOf_past (hnew : d.Unseen d' after h new) (hh : h.Inside d)
    (hoptions : d'.options = d.options) (hc : d.writingOf h name values = .ok c)
    (indent' name' : Text) (values' : List Text) :
    d'.writingOf (h.moved after 1) name values =
      .ok ((Change.insert after indent' name' values').past c) := by
  obtain ⟨found, hfound, -⟩ := exists_findDirect? hh name
  have hfound' := hnew.findDirect?_eq hh hfound
  cases found with
  | none =>
    rw [writingOf, hfound, Checked.ok_bind] at hc
    obtain ⟨indent, hindent, rfl⟩ := eq_of_additionOf hc
    have hindent' := (hnew.indentBelow_eq hh hoptions).trans hindent
    exact writingOf_of_indentBelow hfound' hindent' values
  | some x =>
    obtain rfl := Except.ok.inj ((writingOf_of_findDirect? hfound values).symm.trans hc)
    exact writingOf_of_findDirect? hfound' values

end Inserting

section Rewriting

theorem indentBelow_of_rewritten (hl : d.lines[k]? = some l) (ha : l.Alike l')
    (hindent : l'.indent = l.indent) (hlines : d'.lines = d.lines.set k l')
    (hoptions : d'.options = d.options) (hh : h.Defined d) :
    d'.indentBelow h = d.indentBelow h := by
  cases h with
  | root => rfl
  | line n =>
    let R : Line → Line → Prop := fun l m => l.Alike m ∧ m.indent = l.indent
    have hR : ∀ {l m}, R l m → l.Alike m := fun h => h.1
    have hall : Forall₂ R d.lines d'.lines :=
      hlines ▸ forall₂_set (fun m => ⟨Line.Alike.refl m, rfl⟩) hl ⟨ha, hindent⟩
    obtain ⟨own, hown, hd⟩ := hh n rfl
    obtain ⟨own', hown', halike, hsame⟩ := exists_getElem?_of_forall₂ hall hown
    have hblock := forall₂_blockBelow hR (List.forall₂_drop (n + 1) hall) own.level
    have hmap : ∀ {a b : Option Line}, Option.Rel R a b →
        b.map Line.indent = a.map Line.indent := by
      intro a b hab
      cases hab with
      | none => rfl
      | some hab => exact congrArg some hab.2
    apply indentBelow_congr hown hown' hoptions hsame
    rw [← halike.level_eq hd]
    exact hmap (rel_find?_isDefinition hR hblock)

theorem Valid.writingOf_of_rewritten (hv : d.Valid) (hstep : d.Step (.rewrite k values) d')
    (hh : h.Defined d) (hother : ∀ m, d.findDirect? h name ≠ .ok (some (m, k)))
    (values' : List Text) : d'.writingOf h name values' = d.writingOf h name values' := by
  obtain ⟨l, l', hl, hset, hlines⟩ : ∃ l l', d.lines[k]? = some l ∧ l.setParameters values = .ok l' ∧
      d'.lines = d.lines.set k l' := by
    cases hstep with
    | rewrite hl hset => exact ⟨_, _, hl, hset, rfl⟩
  have ha := Line.alike_setParameters hset
  have hsame := (hv.shaped_of_getElem? hl).indent_setParameters hset
  have hfound := findDirect?_of_rewritten hl ha hlines hh hother
  have hindent := indentBelow_of_rewritten hl ha hsame hlines hstep.options_eq hh
  simp only [writingOf, additionOf, hfound, hindent]

end Rewriting

theorem Orderly.writingOf_past (ho : d.Orderly) (hg : g.Defined d) (hh : h.Defined d)
    (hne : h ≠ g) (hname : name ≠ []) (he : d.writingOf g name values = .ok e)
    (hstep : d.Step e d') {name' : Text} {values' : List Text}
    (hc : d.writingOf h name' values' = .ok c) :
    d'.writingOf (h.past e) name' values' = .ok (e.past c) := by
  obtain ⟨found, hfound, -⟩ := exists_findDirect? hg.inside name
  have hoptions := hstep.options_eq
  cases found with
  | none =>
    obtain ⟨indent, hindent, hi, hdeeper, hwriting⟩ := ho.valid.exists_insertion ho.nests hg hfound
    obtain rfl := Except.ok.inj ((hwriting values).symm.trans he)
    have hnew : d.Unseen d' g h (Line.make indent name values) := by
      cases g with
      | root => exact unseen_of_root hstep.insertedAt hne
      | line n =>
        obtain ⟨own, hown, hd⟩ := hg n rfl
        have hbelow := ho.valid.insertedBelow_of_step hown hd hindent hi (hdeeper n own rfl hown)
          hname hstep
        exact hbelow.unseen hne
    exact hnew.writingOf_past hh.inside hoptions hc indent name values
  | some x =>
    obtain ⟨l, k⟩ := x
    obtain rfl := Except.ok.inj ((writingOf_of_findDirect? hfound values).symm.trans he)
    have hother : ∀ m, d.findDirect? h name' ≠ .ok (some (m, k)) := by
      intro m hm
      exact hne (eq_of_findDirect? hm hfound hh hg)
    rw [Change.past_rewrite, ← hc]
    exact ho.valid.writingOf_of_rewritten hstep hh hother values'

end Document
end SpriteConfig
