import SpriteConfig.Proofs.Beside
/-!
# The order of two writes

A subject makes the same change before and after another subject has written, of lines that have
moved along. Two such changes lead to the same document in either order: of two lines that are
inserted the upper one moves the lower one down, and a line that is written anew is moved down by a
line that is inserted above it.
-/
namespace SpriteConfig

theorem set_insertIdx_shiftFrom {α : Type} (ls : List α) (i n : Nat) (a b : α) :
    (ls.insertIdx i a).set (shiftFrom i n) b = (ls.set n b).insertIdx i a := by
  induction i generalizing ls n with
  | zero =>
    rw [shiftFrom, if_pos (Nat.zero_le n)]
    rfl
  | succ i ih =>
    cases ls with
    | nil => rfl
    | cons c ls =>
      cases n with
      | zero =>
        rw [shiftFrom, if_neg (Nat.not_succ_le_zero i)]
        rfl
      | succ n =>
        have hshift : shiftFrom (i + 1) (n + 1) = shiftFrom i n + 1 := by
          rw [shiftFrom, shiftFrom]
          split <;> split <;> omega
        rw [hshift, List.insertIdx_succ_cons, List.set_cons_succ, ih, List.set_cons_succ,
          List.insertIdx_succ_cons]

section Handles

variable (g h x : Handle)

theorem Handle.eq_of_next_eq {g h : Handle} (heq : g.next = h.next) : g = h := by
  cases g with
  | root =>
    cases h with
    | root => rfl
    | line n => exact absurd heq (Nat.succ_ne_zero n).symm
  | line m =>
    cases h with
    | root => exact absurd heq (Nat.succ_ne_zero m)
    | line n => rw [Nat.succ.inj heq]

theorem Handle.next_moved :
    (h.moved g 1).next = if g.next < h.next then h.next + 1 else h.next := by
  cases h with
  | root => rfl
  | line n =>
    have hnext : (Handle.line n).next = n + 1 := rfl
    have hmoved : (Handle.line (shiftFrom g.next n)).next = shiftFrom g.next n + 1 := rfl
    rw [moved_line_eq, hmoved, hnext, shiftFrom]
    simp only [Nat.lt_succ_iff]
    split <;> rfl

theorem Handle.moved_moved :
    (x.moved g 1).moved (h.moved g 1) 1 = (x.moved h 1).moved (g.moved h 1) 1 := by
  cases x with
  | root => rfl
  | line n =>
    simp only [moved_line_eq, next_moved, line.injEq, shiftFrom]
    split_ifs <;> omega

theorem Registry.shiftAfter_shiftAfter (r : Registry) :
    (r.shiftAfter g 1).shiftAfter (h.moved g 1) 1 =
      (r.shiftAfter h 1).shiftAfter (g.moved h 1) 1 := by
  simp only [shiftAfter, List.map_map, Function.comp_def, Handle.moved_moved g h]

end Handles

/-- Whether two changes insert lines below different subjects, write different lines anew, or do one
of each. -/
def Change.Apart : Change → Change → Prop
  | .insert g _ _ _, .insert h _ _ _ => g ≠ h
  | .rewrite m _, .rewrite n _ => m ≠ n
  | .insert _ _ _ _, .rewrite _ _ | .rewrite _ _, .insert _ _ _ _ => True
  | _, _ => False

namespace Document

variable {d d₁ d₂ : Document} {c e : Change} {g h : Handle} {indent indent' name name' : Text}
  {values values' : List Text} {k n : Nat}

theorem step_insert_iff {d' : Document} :
    d.Step (.insert h indent name values) d' ↔ h.next ≤ d.lines.length ∧
      d' = { d with
        lines := d.lines.insertIdx h.next (Line.make indent name values)
        registry := d.registry.shiftAfter h 1 } := by
  constructor
  · intro hstep
    cases hstep with
    | insert hle => exact ⟨hle, by rw [take_append_cons_drop hle]⟩
  · rintro ⟨hle, rfl⟩
    rw [← take_append_cons_drop hle]
    exact .insert hle

theorem step_rewrite_iff {d' : Document} :
    d.Step (.rewrite n values) d' ↔ ∃ l l', d.lines[n]? = some l ∧
      l.setParameters values = .ok l' ∧ d' = { d with lines := d.lines.set n l' } := by
  constructor
  · intro hstep
    cases hstep with
    | rewrite hl hset => exact ⟨_, _, hl, hset, rfl⟩
  · rintro ⟨l, l', hl, hset, rfl⟩
    exact .rewrite hl hset

private theorem exists_join_of_lt (hc : d.Step (.insert g indent name values) d₁)
    (he : d.Step (.insert h indent' name' values') d₂) (hlt : g.next < h.next) :
    ∃ d', d₁.Step (.insert (h.moved g 1) indent' name' values') d' ∧
      d₂.Step (.insert (g.moved h 1) indent name values) d' := by
  have hg : (g.moved h 1).next = g.next := by rw [Handle.next_moved, if_neg (Nat.lt_asymm hlt)]
  have hh : (h.moved g 1).next = h.next + 1 := by rw [Handle.next_moved, if_pos hlt]
  obtain ⟨hle, rfl⟩ := step_insert_iff.mp hc
  obtain ⟨hle', rfl⟩ := step_insert_iff.mp he
  refine ⟨_, step_insert_iff.mpr ⟨?_, rfl⟩, step_insert_iff.mpr ⟨?_, ?_⟩⟩
  · rw [hh, List.length_insertIdx_of_le_length hle]
    exact Nat.succ_le_succ hle'
  · rw [hg, List.length_insertIdx_of_le_length hle']
    exact Nat.le_succ_of_le hle
  · rw [hg, hh]
    simp only [List.insertIdx_comm _ _ hlt.le hle', Registry.shiftAfter_shiftAfter g h]

private theorem exists_join_rewrite (hc : d.Step (.insert g indent name values) d₁)
    (he : d.Step (.rewrite n values') d₂) :
    ∃ d', d₁.Step (.rewrite (shiftFrom g.next n) values') d' ∧
      d₂.Step (.insert g indent name values) d' := by
  obtain ⟨hle, rfl⟩ := step_insert_iff.mp hc
  obtain ⟨l, l', hl, hset, rfl⟩ := step_rewrite_iff.mp he
  have hmoved := getElem?_inserted hle (Line.make indent name values) n
  rw [take_append_cons_drop hle, hl] at hmoved
  refine ⟨_, step_rewrite_iff.mpr ⟨l, l', hmoved, hset, rfl⟩, step_insert_iff.mpr ⟨?_, ?_⟩⟩
  · rwa [List.length_set]
  · rw [set_insertIdx_shiftFrom]

private theorem exists_join_rewrites (hc : d.Step (.rewrite k values) d₁)
    (he : d.Step (.rewrite n values') d₂) (hne : k ≠ n) :
    ∃ d', d₁.Step (.rewrite n values') d' ∧ d₂.Step (.rewrite k values) d' := by
  obtain ⟨l, l', hl, hset, rfl⟩ := step_rewrite_iff.mp hc
  obtain ⟨m, m', hm, hset', rfl⟩ := step_rewrite_iff.mp he
  have hm' : (d.lines.set k l')[n]? = some m := by rw [List.getElem?_set_ne hne, hm]
  have hl' : (d.lines.set n m')[k]? = some l := by rw [List.getElem?_set_ne hne.symm, hl]
  refine ⟨_, step_rewrite_iff.mpr ⟨m, m', hm', hset', rfl⟩,
    step_rewrite_iff.mpr ⟨l, l', hl', hset, ?_⟩⟩
  rw [List.set_comm _ _ hne]

/-- Two changes that are apart lead to the same document in either order. -/
theorem Step.exists_join (hc : d.Step c d₁) (he : d.Step e d₂) (hapart : c.Apart e) :
    ∃ d', d₁.Step (c.past e) d' ∧ d₂.Step (e.past c) d' := by
  cases c with
  | insert g indent name values =>
    cases e with
    | insert h indent' name' values' =>
      have hne : g.next ≠ h.next := fun heq => hapart (Handle.eq_of_next_eq heq)
      rcases Nat.lt_or_gt_of_ne hne with hlt | hgt
      · exact exists_join_of_lt hc he hlt
      · obtain ⟨d', hd₂, hd₁⟩ := exists_join_of_lt he hc hgt
        exact ⟨d', hd₁, hd₂⟩
    | rewrite n values' => exact exists_join_rewrite hc he
    | delete start stop => exact hapart.elim
    | register n input => exact hapart.elim
  | rewrite k values =>
    cases e with
    | insert h indent' name' values' =>
      obtain ⟨d', hd₂, hd₁⟩ := exists_join_rewrite he hc
      exact ⟨d', hd₁, hd₂⟩
    | rewrite n values' => exact exists_join_rewrites hc he hapart
    | delete start stop => exact hapart.elim
    | register n input => exact hapart.elim
  | delete start stop => exact hapart.elim
  | register n input => exact hapart.elim

theorem apart_of_writingOf (hg : g.Defined d) (hh : h.Defined d) (hne : g ≠ h)
    (hc : d.writingOf g name values = .ok c) (he : d.writingOf h name' values' = .ok e) :
    c.Apart e := by
  rcases eq_of_writingOf hc with ⟨indent, rfl⟩ | ⟨l, k, hfound, rfl⟩
  · rcases eq_of_writingOf he with ⟨indent', rfl⟩ | ⟨m, n, -, rfl⟩
    · exact hne
    · trivial
  · rcases eq_of_writingOf he with ⟨indent', rfl⟩ | ⟨m, n, hfound', rfl⟩
    · trivial
    · rintro rfl
      exact hne (eq_of_findDirect? hfound hfound' hg hh)

theorem Orderly.exists_either_order (ho : d.Orderly) {s s' : SubjectId}
    (hs : d.registry.handle? s = some g) (hs' : d.registry.handle? s' = some h) (hne : s ≠ s')
    (hname : name ≠ []) (hname' : name' ≠ []) (values values' : List Text) :
    ∃ d₁ d₂ d', d.writeProperty s name values = .ok (d₁, true) ∧
      d₁.writeProperty s' name' values' = .ok (d', true) ∧
      d.writeProperty s' name' values' = .ok (d₂, true) ∧
      d₂.writeProperty s name values = .ok (d', true) := by
  have hg := ho.defined hs
  have hh := ho.defined hs'
  have hgh : g ≠ h := by
    rintro rfl
    exact hne (ho.coherent.eq_of_handle? hs hs')
  obtain ⟨c, d₁, hc, -, hstep⟩ := ho.valid.exists_writingOf hg.inside name values
  obtain ⟨e, d₂, he, -, hstep'⟩ := ho.valid.exists_writingOf hh.inside name' values'
  obtain ⟨d', hjoin, hjoin'⟩ := hstep.exists_join hstep' (apart_of_writingOf hg hh hgh hc he)
  have he' := ho.writingOf_past hg hh hgh.symm hname hc hstep he
  have hc' := ho.writingOf_past hh hg hgh hname' he hstep' hc
  refine ⟨d₁, d₂, d', writeProperty_eq_of_step hs hc hstep, ?_,
    writeProperty_eq_of_step hs' he hstep', ?_⟩
  · exact writeProperty_eq_of_step (handle?_past hs' hc hstep) he' hjoin
  · exact writeProperty_eq_of_step (handle?_past hs he hstep') hc' hjoin'

/-- After any edits, two subjects write a property each, and the document is the same whichever of
them writes first. -/
theorem performAll_writes_commute (source : Text) {options : Options} (ho : options.Nests)
    (es : List Edit) {name name' : Text} (hname : name ≠ []) (hname' : name' ≠ [])
    (values values' : List Text) :
    ∃ d, (parse source options).performAll es = .ok d ∧
      ∀ s s' g h, d.registry.handle? s = some g → d.registry.handle? s' = some h → s ≠ s' →
        ∃ d₁ d₂ d', d.writeProperty s name values = .ok (d₁, true) ∧
          d₁.writeProperty s' name' values' = .ok (d', true) ∧
          d.writeProperty s' name' values' = .ok (d₂, true) ∧
          d₂.writeProperty s name values = .ok (d', true) := by
  obtain ⟨d, hd, horderly⟩ := (orderly_parse source ho).exists_performAll es
  refine ⟨d, hd, fun s s' g h hs hs' hne => ?_⟩
  exact horderly.exists_either_order hs hs' hne hname hname' values values'

/-- An input writes the line that its sprite stands on, and the sprite writes below that line. -/
theorem performAll_writes_commute_sprite_line :
    let source := "input a\n\tsprite b\n\tsprite c".toList
    let es := [Edit.writeProperty 1 "trim".toList ["none".toList]]
    let name := "sprite".toList
    let name' := "id".toList
    ({} : Options).Nests ∧ name ≠ [] ∧ name' ≠ [] ∧
      ∃ d, (parse source).performAll es = .ok d ∧ d.registry.handle? 1 = some (.line 0) ∧
        d.registry.handle? 2 = some (.line 2) ∧ (1 : SubjectId) ≠ 2 ∧
        ∃ d₁ d₂ d', d.writeProperty 1 name ["d".toList] = .ok (d₁, true) ∧
          d₁.writeProperty 2 name' ["e".toList] = .ok (d', true) ∧
          d.writeProperty 2 name' ["e".toList] = .ok (d₂, true) ∧
          d₂.writeProperty 1 name ["d".toList] = .ok (d', true) := by
  intro source es name name'
  have hname : name ≠ [] := by decide
  have hname' : name' ≠ [] := by decide
  have hne : (1 : SubjectId) ≠ 2 := by decide
  obtain ⟨d, hd, hcommute⟩ := performAll_writes_commute source Options.nests_default es hname hname'
    ["d".toList] ["e".toList]
  have hhandle : (fun d => (d.registry.handle? 1, d.registry.handle? 2)) <$>
      (parse source).performAll es = .ok (some (.line 0), some (.line 2)) := by decide
  rw [hd, Checked.map_ok, Except.ok.injEq, Prod.mk.injEq] at hhandle
  obtain ⟨hinput, hsprite⟩ := hhandle
  exact ⟨Options.nests_default, hname, hname', d, hd, hinput, hsprite, hne,
    hcommute 1 2 _ _ hinput hsprite hne⟩

end Document
end SpriteConfig
