import SpriteConfig.Proofs.Coherent
import SpriteConfig.Proofs.Inserted
import SpriteConfig.Proofs.Query
/-!
# What a property that is written leaves alone

A new line of a subject is nested deeper than the subject. So what stands around the subject is
nested less deep than the new line, and no lookup from outside that sees past the subject stops at
it; and the new line is nested no less deep than any direct line of the subject.
-/
namespace SpriteConfig

open List (Forall₂)

section Owners

variable {ls : List Line} {l : Line} {h h' : Handle} {i m n : Nat}

theorem DirectLine.eq_of_directLine {d : Document} (hl : DirectLine d.lines h i l)
    (hl' : DirectLine d.lines h' i l) (hh : h.Defined d) (hh' : h'.Defined d) : h = h' := by
  have hnot : ∀ {h : Handle} {n : Nat}, DirectLine d.lines h i l →
      DirectLine d.lines (.line n) i l → (Handle.line n).Defined d → ¬ h.next ≤ n := by
    intro h n hl hl' hn hbefore
    obtain ⟨own, hown, hd⟩ := hn n rfl
    have hle := hl.outermost n own hbefore hl'.next_le hown hd
    have hlt := hl'.deeper n own rfl hown
    omega
  cases h with
  | root =>
    cases h' with
    | root => rfl
    | line n => exact absurd (Nat.zero_le n) (hnot hl hl' hh')
  | line m =>
    cases h' with
    | root => exact absurd (Nat.zero_le m) (hnot hl' hl hh)
    | line n =>
      have hmn : ¬ m < n := hnot hl hl' hh'
      have hnm : ¬ n < m := hnot hl' hl hh
      rw [Nat.le_antisymm (Nat.le_of_not_lt hnm) (Nat.le_of_not_lt hmn)]

theorem DirectLine.inBlock_of_commonLine (hl : DirectLine ls (.line n) i l)
    (hl' : CommonLine ls m i l) : InBlock ls (.line n) m := by
  have hni : n < i := hl.next_le
  refine ⟨Nat.succ_le_of_lt (hni.trans hl'.lt), ?_⟩
  rintro _ own ⟨⟩ hown j a hnj hjm ha
  rw [Line.closes, Bool.and_eq_false_imp]
  intro hd
  have hdeeper : own.level < a.level := by
    have hlevel := hl.deeper n own rfl hown
    rcases Nat.lt_trichotomy j i with hji | rfl | hij
    · exact hlevel.trans_le (hl.outermost j a hnj hji ha hd)
    · obtain rfl : l = a := Option.some.inj (hl.line_eq.symm.trans ha)
      exact hlevel
    · rcases Nat.eq_or_lt_of_le hjm with rfl | hlt
      · exact hlevel.trans (hl'.shallower a ha)
      · exact hlevel.trans_le (hl'.outermost j a hij hlt ha hd)
  simpa using hdeeper

end Owners

namespace Document

variable {d d' : Document} {h : Handle} {name : Text} {new own l : Line} {n : Nat}
  {found : Option (Line × Nat)}

theorem eq_of_findDirect? {h' : Handle} {name' : Text} {l' : Line} {i : Nat}
    (hfound : d.findDirect? h name = .ok (some (l, i)))
    (hfound' : d.findDirect? h' name' = .ok (some (l', i))) (hh : h.Defined d)
    (hh' : h'.Defined d) : h = h' := by
  have hl := ((findDirect?_eq_some_iff hh.inside).mp hfound).1
  have hl' := ((findDirect?_eq_some_iff hh'.inside).mp hfound').1
  obtain rfl : l = l' := Option.some.inj (hl.line_eq.symm.trans hl'.line_eq)
  exact hl.eq_of_directLine hl' hh hh'

theorem le_indentBelow (hshaped : ∀ l ∈ d.lines, l.Shaped) (hn : n < d.lines.length)
    {indent : Text} (hindent : d.indentBelow (.line n) = .ok indent) {i : Nat}
    (hl : DirectLine d.lines (.line n) i l) : l.level ≤ Text.byteLength indent := by
  have hinside := Handle.inside_line hn
  obtain ⟨start, block, hblock, rfl, hmem⟩ := exists_block_iff hinside
  have hin := (hmem l i hl.isDefinition).mpr ⟨hl.line_eq, hl.inBlock⟩
  obtain ⟨hle, hget⟩ := List.mem_zipIdx_iff_le_and_getElem?_sub.mp hin
  rw [indentBelow, hblock, Checked.ok_bind] at hindent
  dsimp only at hindent
  cases hchild : block.find? Line.isDefinition with
  | none =>
    have hnone := List.find?_eq_none.mp hchild l (List.mem_of_getElem? hget)
    exact absurd hl.isDefinition hnone
  | some child =>
    rw [hchild] at hindent
    obtain ⟨hcd, before, rest, rfl, hnone⟩ := List.find?_eq_some_iff_append.mp hchild
    have hfirst : (before ++ child :: rest)[before.length]? = some child := by
      rw [List.getElem?_append_right (Nat.le_refl _), Nat.sub_self, List.getElem?_cons_zero]
    have hchildIn : (child, (Handle.line n).next + before.length) ∈
        (before ++ child :: rest).zipIdx (Handle.line n).next :=
      List.mk_add_mem_zipIdx_iff_getElem?.mpr hfirst
    obtain ⟨hchildAt, hchildBlock⟩ := (hmem child _ hcd).mp hchildIn
    have hlevel := (hshaped child (List.mem_of_getElem? hchildAt)).length_indent hcd
    rw [← Except.ok.inj hindent, child.isIndentation_indent.byteLength_eq, hlevel]
    rcases Nat.lt_trichotomy (i - (Handle.line n).next) before.length with hlt | heq | hgt
    · rw [List.getElem?_append_left hlt] at hget
      simpa [hl.isDefinition] using hnone l (List.mem_of_getElem? hget)
    · rw [heq, hfirst, Option.some.injEq] at hget
      rw [hget]
    · exact hl.outermost _ child hchildBlock.next_le (by omega) hchildAt hcd

/-- Whether a new line has been inserted right below line `n`, nested deeper than that line and no
less deep than what is direct below it. -/
structure InsertedBelow (d d' : Document) (n : Nat) (own new : Line) : Prop where
  inserted : InsertedAt d.lines d'.lines (n + 1) new
  registry_eq : d'.registry = d.registry.shiftAfter (.line n) 1
  own_eq : d.lines[n]? = some own
  own_isDefinition : own.isDefinition = true
  isDefinition : new.isDefinition = true
  deeper : own.level < new.level
  direct_le : ∀ i l, DirectLine d.lines (.line n) i l → l.level ≤ new.level

theorem InsertedBelow.own_eq_inserted (hnew : d.InsertedBelow d' n own new) :
    d'.lines[n]? = some own := by
  rw [← hnew.own_eq, ← hnew.inserted.getElem?_shiftFrom, shiftFrom_succ_self]

theorem InsertedBelow.directLine (hnew : d.InsertedBelow d' n own new) :
    DirectLine d'.lines (.line n) (n + 1) new := by
  refine ⟨hnew.inserted.getElem?_self, hnew.isDefinition, Nat.le_refl _, ?_, ?_⟩
  · rintro _ own' ⟨⟩ hown
    obtain rfl : own = own' := Option.some.inj (hnew.own_eq_inserted.symm.trans hown)
    exact hnew.deeper
  · intro j m hj hlt
    exact absurd hlt (Nat.not_lt_of_le hj)

theorem InsertedBelow.inBlock_of_inserted (hnew : d.InsertedBelow d' n own new) {m : Nat}
    (hin : InBlock d'.lines (.line n) (shiftFrom (n + 1) m)) (hnm : n < m) :
    InBlock d.lines (.line n) m := by
  refine ⟨hnm, ?_⟩
  rintro _ own' ⟨⟩ hown j a hnj hjm ha
  obtain rfl : own = own' := Option.some.inj (hnew.own_eq.symm.trans hown)
  apply hin.not_closes n own rfl hnew.own_eq_inserted (shiftFrom (n + 1) j) a
  · exact Nat.lt_of_succ_lt (lt_shiftFrom_iff.mpr hnj)
  · exact Nat.le_of_not_lt fun hlt => Nat.not_lt_of_le hjm (shiftFrom_lt_shiftFrom_iff.mp hlt)
  · exact (hnew.inserted.getElem?_shiftFrom j).trans ha

theorem InsertedBelow.level_le (hnew : d.InsertedBelow d' n own new) {i : Nat}
    (hl : DirectLine d.lines h i l) (hle : h.next ≤ n + 1) (hi : n + 1 ≤ i) :
    l.level ≤ new.level := by
  by_cases hself : h = .line n
  · exact hnew.direct_le i l (hself ▸ hl)
  · have hbefore := Handle.next_le_of_ne hself hle
    have hown := hl.outermost n own hbefore hi hnew.own_eq hnew.own_isDefinition
    exact hown.trans hnew.deeper.le

theorem InsertedBelow.not_directLine (hnew : d.InsertedBelow d' n own new) (hne : h ≠ .line n) :
    ¬ DirectLine d'.lines (h.moved (.line n) 1) (n + 1) new := by
  intro hl
  have hle := Handle.next_le_of_ne hne (Handle.moved_next_le_next_iff.mp hl.next_le)
  have hnext : (h.moved (.line n) 1).next ≤ n := by
    have hmoved : (h.moved (.line n) 1).next ≤ shiftFrom (n + 1) n :=
      Handle.moved_next_le_shiftFrom_iff.mpr hle
    rwa [shiftFrom_succ_self] at hmoved
  have hown := hl.outermost n own hnext (Nat.lt_succ_self n) hnew.own_eq_inserted
    hnew.own_isDefinition
  exact absurd hown hnew.deeper.not_ge

theorem InsertedBelow.findDirect?_eq (hnew : d.InsertedBelow d' n own new) (hh : h.Inside d)
    (hother : h ≠ .line n ∨ new.definition ≠ name) (hfound : d.findDirect? h name = .ok found) :
    d'.findDirect? (h.moved (.line n) 1) name =
      .ok (found.map fun x => (x.1, shiftFrom (n + 1) x.2)) := by
  apply findDirect?_of_inserted hnew.inserted hh _ _ hfound
  · intro i l hl hle hi
    exact hnew.level_le hl hle hi
  · intro hname
    exact hnew.not_directLine (hother.resolve_right (not_not_intro hname))

theorem InsertedBelow.findCommon?_eq (hnew : d.InsertedBelow d' n own new) {m : Nat}
    (hm : m < d.lines.length) (hother : new.definition = name → ¬ InBlock d.lines (.line n) m)
    (hfound : d.findCommon? (.line m) name = .ok found) :
    d'.findCommon? (.line (shiftFrom (n + 1) m)) name =
      .ok (found.map fun x => (x.1, shiftFrom (n + 1) x.2)) := by
  apply findCommon?_of_inserted hnew.inserted hm _ _ hfound
  · intro i l hl hi hnm
    have hown : l.level ≤ own.level := by
      rcases Nat.eq_or_lt_of_le (Nat.le_of_lt_succ hi) with rfl | hlt
      · obtain rfl : own = l := Option.some.inj (hnew.own_eq.symm.trans hl.line_eq)
        exact Nat.le_refl _
      · exact hl.outermost n own hlt hnm hnew.own_eq hnew.own_isDefinition
    exact hown.trans hnew.deeper.le
  · intro hname hl
    have hin := hnew.directLine.inBlock_of_commonLine hl
    exact hother hname (hnew.inBlock_of_inserted hin (lt_shiftFrom_iff.mp hl.lt))

section Inserting

variable {s : SubjectId}

theorem InsertedBelow.handle?_eq (hnew : d.InsertedBelow d' n own new)
    (hs : d.registry.handle? s = some h) :
    d'.registry.handle? s = some (h.moved (.line n) 1) := by
  rw [hnew.registry_eq, Registry.handle?_shiftAfter hs]

theorem InsertedBelow.direct?_eq (hnew : d.InsertedBelow d' n own new)
    (hs : d.registry.handle? s = some h) (hh : h.Inside d)
    (hother : h ≠ .line n ∨ new.definition ≠ name) : d'.direct? s name = d.direct? s name := by
  obtain ⟨found, hfound, -⟩ := exists_findDirect? hh name
  have hfound' := hnew.findDirect?_eq hh hother hfound
  rw [direct?_of_handle? hs hfound, direct?_of_handle? (hnew.handle?_eq hs) hfound',
    foundParameters_map]

theorem InsertedBelow.common?_eq (hnew : d.InsertedBelow d' n own new)
    (hs : d.registry.handle? s = some h) (hh : h.Inside d)
    (hother : new.definition = name → ∀ m, h = .line m → ¬ InBlock d.lines (.line n) m) :
    d'.common? s name = d.common? s name := by
  have hs' := hnew.handle?_eq hs
  cases h with
  | root => rw [common?_of_root hs, common?_of_root hs']
  | line m =>
    obtain ⟨found, hfound, -⟩ := exists_findCommon? hh name
    have hfound' := hnew.findCommon?_eq (hh m rfl) (fun hname => hother hname m rfl) hfound
    rw [Handle.moved_line_eq] at hs'
    rw [common?_of_handle? hs hfound, common?_of_handle? hs' hfound', foundParameters_map]

theorem InsertedBelow.ownParameters?_eq (hnew : d.InsertedBelow d' n own new)
    (hs : d.registry.handle? s = some h) : d'.ownParameters? s = d.ownParameters? s := by
  have hs' := hnew.handle?_eq hs
  have hown : d'.ownLine? s = d.ownLine? s := by
    cases h with
    | root => rw [ownLine?_of_root hs, ownLine?_of_root hs']
    | line m =>
      rw [Handle.moved_line_eq] at hs'
      rw [ownLine?_of_line hs, ownLine?_of_line hs']
      exact hnew.inserted.getElem?_shiftFrom m
  rw [ownParameters?, ownParameters?, hown]

end Inserting

section Rewriting

variable {s : SubjectId} {l' : Line} {k : Nat}

private theorem eq_of_rel_numbered {found' : Option (Line × Nat)}
    (hrel : Option.Rel (Numbered Line.Alike) found found')
    (hat : ∀ l n, found = some (l, n) → d.lines[n]? = some l)
    (hat' : ∀ l n, found' = some (l, n) → (d.lines.set k l')[n]? = some l)
    (hne : ∀ l n, found = some (l, n) → n ≠ k) : found' = found := by
  cases hrel with
  | none => rfl
  | @some x y hxy =>
    obtain ⟨l, n⟩ := x
    obtain ⟨m, j⟩ := y
    obtain ⟨-, rfl⟩ := hxy
    have hm := hat' m n rfl
    rw [List.getElem?_set_ne (hne l n rfl).symm, hat l n rfl, Option.some.injEq] at hm
    rw [hm]

theorem findDirect?_of_rewritten (hl : d.lines[k]? = some l) (ha : l.Alike l')
    (hlines : d'.lines = d.lines.set k l') (hh : h.Defined d)
    (hother : ∀ m, d.findDirect? h name ≠ .ok (some (m, k))) :
    d'.findDirect? h name = d.findDirect? h name := by
  have hinside : h.Inside d' := hh.inside.of_length_eq (by rw [hlines, List.length_set])
  obtain ⟨found, hfound, hat⟩ := exists_findDirect? hh.inside name
  have hall : Forall₂ Line.Alike d.lines d'.lines := hlines ▸ forall₂_set Line.Alike.refl hl ha
  obtain ⟨found', hfound', hrel⟩ := rel_findDirect? (fun h => h) hall hh hfound
  rw [hfound, hfound', Except.ok.injEq]
  apply eq_of_rel_numbered hrel
  · intro m n hm
    exact (hat m n hm).1
  · intro m n hm
    rw [← hlines]
    exact (getElem?_of_findDirect? hinside (hm ▸ hfound')).1
  · rintro m n hm rfl
    exact hother m (hm ▸ hfound)

variable (hl : d.lines[k]? = some l) (ha : l.Alike l') (hlines : d'.lines = d.lines.set k l')
  (hregistry : d'.registry = d.registry) (hs : d.registry.handle? s = some h)

include hl ha hlines hregistry hs

theorem direct?_eq_of_rewritten (hh : h.Defined d)
    (hother : ∀ m, d.findDirect? h name ≠ .ok (some (m, k))) :
    d'.direct? s name = d.direct? s name := by
  obtain ⟨found, hfound, -⟩ := exists_findDirect? hh.inside name
  have hfound' := (findDirect?_of_rewritten hl ha hlines hh hother).trans hfound
  rw [direct?_of_handle? hs hfound, direct?_of_handle? (hregistry ▸ hs) hfound']

theorem common?_eq_of_rewritten (hh : h.Defined d)
    (hother : ∀ m, d.findCommon? h name ≠ .ok (some (m, k))) :
    d'.common? s name = d.common? s name := by
  have hinside : h.Inside d' := hh.inside.of_length_eq (by rw [hlines, List.length_set])
  obtain ⟨found, hfound, hat⟩ := exists_findCommon? hh.inside name
  obtain ⟨found₂, hfound₂, hat'⟩ := exists_findCommon? hinside name
  have hall : Forall₂ Line.Alike d.lines d'.lines := hlines ▸ forall₂_set Line.Alike.refl hl ha
  obtain ⟨found', hfound', hrel⟩ := rel_findCommon? (fun h => h) hall hh hfound
  have heq : found' = found := by
    apply eq_of_rel_numbered hrel
    · intro m n hm
      exact (hat m n hm).1
    · intro m n hm
      rw [hfound', Except.ok.injEq] at hfound₂
      rw [← hlines]
      exact (hat' m n (hfound₂ ▸ hm)).1
    · rintro m n hm rfl
      exact hother m (hm ▸ hfound)
  rw [common?_of_handle? hs hfound, common?_of_handle? (hregistry ▸ hs) hfound', heq]

omit hl ha in
theorem ownParameters?_eq_of_rewritten (hne : h ≠ .line k) :
    d'.ownParameters? s = d.ownParameters? s := by
  have hs' : d'.registry.handle? s = some h := hregistry ▸ hs
  have hown : d'.ownLine? s = d.ownLine? s := by
    cases h with
    | root => rw [ownLine?_of_root hs, ownLine?_of_root hs']
    | line m =>
      have hkm : k ≠ m := fun heq => hne (heq ▸ rfl)
      rw [ownLine?_of_line hs, ownLine?_of_line hs', hlines, List.getElem?_set_ne hkm]
  rw [ownParameters?, ownParameters?, hown]

end Rewriting

theorem blockHas_of_inBlock {m : Nat} (hh : h.Inside d) (hl : d.lines[m]? = some l)
    (hd : l.isDefinition = true) (hin : InBlock d.lines h m) : d.BlockHas h m := by
  obtain ⟨start, block, hblock, -, hmem⟩ := exists_block_iff hh
  have hzip := (hmem l m hd).mpr ⟨hl, hin⟩
  obtain ⟨hle, hget⟩ := List.mem_zipIdx_iff_le_and_getElem?_sub.mp hzip
  have hlt : m - start < block.length := (List.getElem?_eq_some_iff.mp hget).1
  exact ⟨(start, block), hblock, hle, (Nat.sub_lt_iff_lt_add' hle).mp hlt⟩

/-- Whether a write of a property by the subject on line `n` leaves alone what another subject, or
the same one, has under a name. -/
structure Keeps (d d' : Document) (n : Nat) (written : Text) (h : Handle) (s : SubjectId)
    (name : Text) : Prop where
  direct?_eq : h ≠ .line n ∨ name ≠ written → d'.direct? s name = d.direct? s name
  common?_eq : name ≠ written ∨ (∀ m, h = .line m → ¬ d.BlockHas (.line n) m) →
    d'.common? s name = d.common? s name
  ownParameters?_eq : (∀ l k, d.findDirect? (.line n) written = .ok (some (l, k)) → h ≠ .line k) →
    d'.ownParameters? s = d.ownParameters? s

theorem InsertedBelow.keeps (hnew : d.InsertedBelow d' n own new) {s : SubjectId}
    (hs : d.registry.handle? s = some h) (hh : h.Defined d) (name : Text) :
    d.Keeps d' n new.definition h s name := by
  have hinside : (Handle.line n).Inside d :=
    Handle.inside_line (List.getElem?_eq_some_iff.mp hnew.own_eq).1
  refine ⟨fun hother => ?_, fun hother => ?_, fun _ => hnew.ownParameters?_eq hs⟩
  · exact hnew.direct?_eq hs hh.inside (hother.imp_right Ne.symm)
  · apply hnew.common?_eq hs hh.inside
    rintro hname m rfl hin
    obtain ⟨l, hl, hd⟩ := hh m rfl
    have hnot := hother.resolve_left (not_not_intro hname.symm) m rfl
    exact hnot (blockHas_of_inBlock hinside hl hd hin)

theorem keeps_of_rewritten {s : SubjectId} {k : Nat} {l' : Line}
    (hfound : d.findDirect? (.line n) name = .ok (some (l, k))) (hn : (Handle.line n).Defined d)
    (ha : l.Alike l') (hlines : d'.lines = d.lines.set k l') (hregistry : d'.registry = d.registry)
    (hs : d.registry.handle? s = some h) (hh : h.Defined d) (name' : Text) :
    d.Keeps d' n name h s name' := by
  obtain ⟨hdirect, rfl, -⟩ := (findDirect?_eq_some_iff hn.inside).mp hfound
  refine ⟨fun hother => ?_, fun hother => ?_, fun hother => ?_⟩
  · apply direct?_eq_of_rewritten hdirect.line_eq ha hlines hregistry hs hh
    intro m hm
    obtain ⟨hline, -, hname⟩ := getElem?_of_findDirect? hh.inside hm
    obtain rfl : l = m := Option.some.inj (hdirect.line_eq.symm.trans hline)
    exact hother.elim (· (eq_of_findDirect? hm hfound hh hn)) (· hname.symm)
  · apply common?_eq_of_rewritten hdirect.line_eq ha hlines hregistry hs hh
    intro m hm
    cases h with
    | root => simp [findCommon?, commonAt, findDefinition?] at hm
    | line j =>
      obtain ⟨own, hown, hd⟩ := hh j rfl
      obtain ⟨hcommon, hname, -⟩ := (findCommon?_eq_some_iff (hh.inside j rfl)).mp hm
      obtain rfl : l = m := Option.some.inj (hdirect.line_eq.symm.trans hcommon.line_eq)
      have hnot := hother.resolve_left (not_not_intro hname.symm) j rfl
      have hin := hdirect.inBlock_of_commonLine hcommon
      exact hnot (blockHas_of_inBlock hn.inside hown hd hin)
  · exact ownParameters?_eq_of_rewritten hlines hregistry hs (hother l k hfound)

theorem Valid.insertedBelow_of_step (hv : d.Valid) (hown : d.lines[n]? = some own)
    (hd : own.isDefinition = true) {indent : Text} (hindent : d.indentBelow (.line n) = .ok indent)
    (hi : indent.IsIndentation) (hdeeper : own.level < indent.length) (hname : name ≠ [])
    {values : List Text} (hstep : d.Step (.insert (.line n) indent name values) d') :
    d.InsertedBelow d' n own (Line.make indent name values) := by
  have hlevel := Line.level_make hi hname values
  have hn := (List.getElem?_eq_some_iff.mp hown).1
  have hregistry : d'.registry = d.registry.shiftAfter (.line n) 1 := by
    cases hstep
    rfl
  refine ⟨hstep.insertedAt, hregistry, hown, hd, Line.isDefinition_make hname values,
    hlevel ▸ hdeeper, fun i l hl => ?_⟩
  rw [hlevel, ← hi.byteLength_eq]
  exact le_indentBelow hv.shaped hn hindent hl

/-- A property that is written leaves alone what else there is. -/
theorem Orderly.exists_keeps (ho : d.Orderly) {s : SubjectId}
    (hs : d.registry.handle? s = some (.line n)) (hname : name ≠ []) (values : List Text) :
    ∃ d', d.writeProperty s name values = .ok (d', true) ∧
      ∀ s' h', d.registry.handle? s' = some h' → ∀ name', d.Keeps d' n name h' s' name' := by
  have hn := ho.defined hs
  obtain ⟨own, hown, hd⟩ := hn n rfl
  obtain ⟨found, hfound, -⟩ := exists_findDirect? hn.inside name
  cases found with
  | none =>
    obtain ⟨indent, hindent, hi, hdeeper, hwriting⟩ := ho.valid.exists_insertion ho.nests hn hfound
    obtain ⟨d', hstep⟩ : ∃ d', d.Step (.insert (.line n) indent name values) d' :=
      ⟨_, .insert hn.inside.next_le⟩
    have hlevel := hdeeper n own rfl hown
    have hnew := ho.valid.insertedBelow_of_step hown hd hindent hi hlevel hname hstep
    refine ⟨d', writeProperty_eq_of_step hs (hwriting values) hstep, fun s' h' hs' name' => ?_⟩
    have hkeeps := hnew.keeps hs' (ho.defined hs') name'
    rwa [Line.make_definition] at hkeeps
  | some p =>
    obtain ⟨l, k⟩ := p
    obtain ⟨hl, -, -⟩ := getElem?_of_findDirect? hn.inside hfound
    have hshaped := ho.valid.shaped_of_getElem? hl
    obtain ⟨l', hset, -, -⟩ := hshaped.exists_setParameters values
    have hwriting := writingOf_of_findDirect? hfound values
    refine ⟨{ d with lines := d.lines.set k l' },
      writeProperty_eq_of_step hs hwriting (.rewrite hl hset), fun s' h' hs' name' => ?_⟩
    have halike := Line.alike_setParameters hset
    apply keeps_of_rewritten hfound hn halike _ _ hs' (ho.defined hs')
    · rfl
    · rfl

/-- After any edits, a property that is written for a subject on a line leaves alone the other direct
properties of all subjects, the common properties with other names, the common properties with the
same name outside the block of the subject, and the parameters on the lines of all subjects, except
the line that is written anew. -/
theorem performAll_keeps (source : Text) {options : Options} (ho : options.Nests) (es : List Edit)
    {name : Text} (hname : name ≠ []) (values : List Text) :
    ∃ d, (parse source options).performAll es = .ok d ∧
      ∀ s n, d.registry.handle? s = some (.line n) →
        ∃ d', d.writeProperty s name values = .ok (d', true) ∧
          ∀ s' h', d.registry.handle? s' = some h' → ∀ name',
            (s' ≠ s ∨ name' ≠ name →
              ∃ found, d.direct? s' name' = .ok found ∧ d'.direct? s' name' = .ok found) ∧
            (name' ≠ name ∨ (∀ m, h' = .line m → ¬ d.BlockHas (.line n) m) →
              ∃ found, d.common? s' name' = .ok found ∧ d'.common? s' name' = .ok found) ∧
            ((∀ l k, d.findDirect? (.line n) name = .ok (some (l, k)) → h' ≠ .line k) →
              ∃ own, d.ownParameters? s' = .ok own ∧ d'.ownParameters? s' = .ok own) := by
  obtain ⟨d, hd, horderly⟩ := (orderly_parse source ho).exists_performAll es
  refine ⟨d, hd, fun s n hs => ?_⟩
  obtain ⟨d', hwrite, hkeeps⟩ := horderly.exists_keeps hs hname values
  refine ⟨d', hwrite, fun s' h' hs' name' => ⟨fun hother => ?_, fun hother => ?_, fun hother => ?_⟩⟩
  · obtain ⟨found, hfound⟩ := horderly.valid.exists_direct? s' name'
    have hhandle : s' ≠ s → h' ≠ .line n := by
      rintro hne rfl
      exact hne (horderly.coherent.eq_of_handle? hs' hs)
    exact ⟨found, hfound, ((hkeeps s' h' hs' name').direct?_eq (hother.imp_left hhandle)).trans hfound⟩
  · obtain ⟨found, hfound⟩ := horderly.valid.exists_common? s' name'
    exact ⟨found, hfound, ((hkeeps s' h' hs' name').common?_eq hother).trans hfound⟩
  · obtain ⟨own, hown⟩ := horderly.valid.exists_ownParameters? s'
    exact ⟨own, hown, ((hkeeps s' h' hs' name').ownParameters?_eq hother).trans hown⟩

/-- A property that is written for an input leaves alone the one of its sprite with the same name, and
what the sprite inherits with another name. -/
theorem performAll_keeps_nested :
    let source := "scale 2\ninput a\n  sprite b\n    trim none".toList
    let es := [Edit.writeProperty 2 "id".toList ["c".toList]]
    let name := "trim".toList
    ({} : Options).Nests ∧ name ≠ [] ∧
      ∃ d d', (parse source).performAll es = .ok d ∧
        d.registry.handle? 1 = some (.line 1) ∧ d.registry.handle? 2 = some (.line 2) ∧
        d.writeProperty 1 name ["crop".toList] = .ok (d', true) ∧
        (∃ found, d.direct? 2 name = .ok found ∧ d'.direct? 2 name = .ok found) ∧
        ∃ found, d.common? 2 "scale".toList = .ok found ∧
          d'.common? 2 "scale".toList = .ok found := by
  intro source es name
  have hname : name ≠ [] := by decide
  obtain ⟨d, hd, hkeeps⟩ :=
    performAll_keeps source Options.nests_default es hname ["crop".toList]
  have hhandle : (fun d => (d.registry.handle? 1, d.registry.handle? 2)) <$>
      (parse source).performAll es = .ok (some (.line 1), some (.line 2)) := by decide
  rw [hd, Checked.map_ok, Except.ok.injEq, Prod.mk.injEq] at hhandle
  obtain ⟨hinput, hsprite⟩ := hhandle
  obtain ⟨d', hwrite, hother⟩ := hkeeps 1 1 hinput
  have htrim := (hother 2 _ hsprite name).1 (.inl (by decide))
  have hscale := (hother 2 _ hsprite "scale".toList).2.1 (.inl (by decide))
  exact ⟨Options.nests_default, hname, d, d', hd, hinput, hsprite, hwrite, htrim, hscale⟩

end Document
end SpriteConfig
