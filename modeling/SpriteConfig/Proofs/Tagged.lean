import SpriteConfig.Proofs.Numbered
/-!
# Subjects and the lines they were registered for

Every line gets a tag when it is read or inserted, and keeps it wherever it moves. A subject is
registered for the line of one tag: as long as that line is there, the subject stands on it.
-/
namespace SpriteConfig

/-- A document with a tag beside every line. -/
structure Tagged where
  document : Document
  tags : List Nat
  /-- The tag that the next new line gets. -/
  nextTag : Nat
  /-- The tag of the line that a subject was registered for. -/
  home : SubjectId → Option Nat

namespace Tagged

def ofDocument (d : Document) : Tagged :=
  { document := d
    tags := List.range d.lines.length
    nextTag := d.lines.length
    home := d.registry.line? }

/-- A new line gets a new tag, and a new subject the tag of its line. -/
def change (t : Tagged) (c : Change) : Checked Tagged := do
  let document ← t.document.changeNumbered c
  return match c with
  | .insert h _ _ _ =>
    { t with
      document
      tags := t.tags.take h.next ++ t.nextTag :: t.tags.drop h.next
      nextTag := t.nextTag + 1 }
  | .rewrite _ _ => { t with document }
  | .delete start stop => { t with document, tags := t.tags.take start ++ t.tags.drop stop }
  | .register n _ =>
    { t with
      document
      home := fun id => if id = t.document.registry.nextId then t.tags[n]? else t.home id }

def changeAll (t : Tagged) (cs : List Change) : Checked Tagged := cs.foldlM change t

def perform (t : Tagged) (e : Edit) : Checked Tagged := do
  t.changeAll (← t.document.changesOf e)

def performAll (t : Tagged) (es : List Edit) : Checked Tagged := es.foldlM perform t

def run (source : Text) (options : Options) (es : List Edit) : Checked Tagged := do
  (ofDocument (← Document.read source options)).performAll es

/-- No two lines have the same tag, and the subjects are those whose lines are there: each stands
on the line that it was registered for, or is the sheet before the first line. -/
structure Sound (t : Tagged) : Prop where
  length_eq : t.tags.length = t.document.lines.length
  nodup : t.tags.Nodup
  tag_lt : ∀ tag ∈ t.tags, tag < t.nextTag
  id_lt : ∀ s ∈ t.document.registry.subjects, s.id < t.document.registry.nextId
  home_lt : ∀ id tag, t.home id = some tag → id < t.document.registry.nextId ∧ tag < t.nextTag
  root : ∀ s ∈ t.document.registry.subjects, s.handle = .root →
    s.kind = .sheet ∧ t.home s.id = none
  standing : t.document.registry.Stands t.tags fun id _ tag => t.home id = some tag
  registered : ∀ id tag, t.home id = some tag → tag ∈ t.tags →
    ∃ s ∈ t.document.registry.subjects, s.id = id

variable {t : Tagged} {d : Document}

theorem Sound.insert (hs : t.Sound) {h : Handle} (hle : h.next ≤ t.document.lines.length)
    (l : Line) :
    Sound
      { t with
        document :=
          { t.document with
            lines := t.document.lines.take h.next ++ l :: t.document.lines.drop h.next
            registry := t.document.registry.shiftAfter h 1 }
        tags := t.tags.take h.next ++ t.nextTag :: t.tags.drop h.next
        nextTag := t.nextTag + 1 } := by
  have hlen := hs.length_eq
  have hperm :
      (t.tags.take h.next ++ t.nextTag :: t.tags.drop h.next).Perm (t.nextTag :: t.tags) := by
    conv_rhs => rw [← List.take_append_drop h.next t.tags]
    exact List.perm_middle
  have hnew : t.nextTag ∉ t.tags := fun hmem => Nat.lt_irrefl _ (hs.tag_lt _ hmem)
  refine ⟨?_, ?_, ?_, ?_, ?_, ?_, ?_, ?_⟩
  · simp only [List.length_append, List.length_take, List.length_cons, List.length_drop]
    omega
  · exact hperm.nodup_iff.mpr (List.nodup_cons.mpr ⟨hnew, hs.nodup⟩)
  · intro tag ht
    rcases List.mem_cons.mp (hperm.mem_iff.mp ht) with rfl | ht
    · exact Nat.lt_succ_self _
    · exact Nat.lt_succ_of_lt (hs.tag_lt tag ht)
  · intro s' hmem
    obtain ⟨s, hold, rfl⟩ := List.mem_map.mp hmem
    exact hs.id_lt s hold
  · intro id tag ht
    obtain ⟨hid, htag⟩ := hs.home_lt id tag ht
    exact ⟨hid, Nat.lt_succ_of_lt htag⟩
  · intro s' hmem hh
    obtain ⟨s, hold, rfl⟩ := List.mem_map.mp hmem
    exact hs.root s hold (Handle.eq_root_of_moved hh)
  · exact hs.standing.insert (hlen ▸ hle) _
  · intro id tag ht hmem
    rcases List.mem_cons.mp (hperm.mem_iff.mp hmem) with rfl | hmem
    · exact absurd (hs.home_lt id _ ht).2 (Nat.lt_irrefl _)
    · obtain ⟨s, hmem, rfl⟩ := hs.registered id tag ht hmem
      exact ⟨_, List.mem_map_of_mem hmem, rfl⟩

theorem Sound.gone (hs : t.Sound) {start stop : Nat} {id : SubjectId}
    (hid : id ∈ t.document.registry.gone start stop) {tag : Nat} (ht : t.home id = some tag) :
    tag ∉ t.tags.take start ++ t.tags.drop stop := by
  obtain ⟨s, hmem, rfl⟩ := List.mem_map.mp hid
  obtain ⟨hmem, hin⟩ := List.mem_filter.mp hmem
  cases hh : s.handle with
  | root => simp [Registry.standsIn, hh] at hin
  | line n =>
    simp only [Registry.standsIn, hh, Bool.and_eq_true, decide_eq_true_eq] at hin
    obtain ⟨tag', hn, ht'⟩ := hs.standing s hmem n hh
    rw [ht, Option.some.injEq] at ht'
    subst ht'
    -- The tag stands at `n` alone, which is neither before nor after the deleted lines.
    have honly : ∀ m, t.tags[m]? = some tag → m = n := by
      intro m hm
      have hlt := (List.getElem?_eq_some_iff.mp hm).1
      exact (List.getElem?_inj hlt hs.nodup).mp (hm.trans hn.symm)
    intro hmem
    rcases List.mem_append.mp hmem with hmem | hmem
    · obtain ⟨m, hm⟩ := List.mem_iff_getElem?.mp hmem
      rw [List.getElem?_take] at hm
      split at hm
      · have := honly m hm
        omega
      · simp at hm
    · obtain ⟨m, hm⟩ := List.mem_iff_getElem?.mp hmem
      rw [List.getElem?_drop] at hm
      have := honly _ hm
      omega

theorem Sound.delete (hs : t.Sound) {start stop : Nat} (hle : start ≤ stop)
    (hstop : stop ≤ t.document.lines.length) :
    Sound
      { t with
        document :=
          { t.document with
            lines := t.document.lines.take start ++ t.document.lines.drop stop
            registry := t.document.registry.deleteLines start stop }
        tags := t.tags.take start ++ t.tags.drop stop } := by
  have hlen := hs.length_eq
  have hnext := t.document.registry.nextId_deleteLines start stop
  have hsub : (t.tags.take start ++ t.tags.drop stop).Sublist t.tags := by
    conv_rhs => rw [← List.take_append_drop start t.tags]
    exact (List.Sublist.refl _).append (List.drop_sublist_drop_left t.tags hle)
  refine ⟨?_, hs.nodup.sublist hsub, fun tag ht => hs.tag_lt tag (hsub.subset ht), ?_, ?_, ?_, ?_,
    ?_⟩
  · simp only [List.length_append, List.length_take, List.length_drop]
    omega
  · intro s hmem
    obtain ⟨s, hold, -, rfl⟩ := Registry.mem_deleteLines.mp hmem
    exact hnext ▸ hs.id_lt s hold
  · intro id tag ht
    exact hnext ▸ hs.home_lt id tag ht
  · intro s hmem hh
    obtain ⟨s, hold, -, rfl⟩ := Registry.mem_deleteLines.mp hmem
    exact hs.root s hold (Registry.eq_root_of_moveAfter hh)
  · exact hs.standing.delete hle (hlen ▸ hstop)
  · intro id tag ht hmem
    obtain ⟨s, hin, rfl⟩ := hs.registered id tag ht (hsub.subset hmem)
    exact Registry.exists_mem_deleteLines hin fun hgone => hs.gone hgone ht hmem

theorem Sound.register (hs : t.Sound) {n : Nat} (hlt : n < t.document.lines.length)
    (input : SubjectId) :
    Sound
      { t with
        document :=
          { t.document with
            registry := t.document.registry.add .sprite (.line n) (some input) }
        home := fun id => if id = t.document.registry.nextId then t.tags[n]? else t.home id } := by
  obtain ⟨own, hget⟩ : ∃ own, t.tags[n]? = some own :=
    ⟨_, List.getElem?_eq_getElem (hs.length_eq ▸ hlt)⟩
  have hkeep : ∀ s ∈ t.document.registry.subjects, s.id ≠ t.document.registry.nextId :=
    fun s hmem => Nat.ne_of_lt (hs.id_lt s hmem)
  refine ⟨hs.length_eq, hs.nodup, hs.tag_lt, ?_, ?_, ?_, ?_, ?_⟩
  · intro s hmem
    rcases Registry.mem_insertOrdered.mp hmem with rfl | hmem
    · exact Nat.lt_succ_self _
    · exact Nat.lt_succ_of_lt (hs.id_lt s hmem)
  · intro id tag ht
    dsimp only at ht
    split at ht
    · next hid =>
      rw [hget, Option.some.injEq] at ht
      subst ht hid
      exact ⟨Nat.lt_succ_self _, hs.tag_lt _ (List.mem_of_getElem? hget)⟩
    · obtain ⟨hid, htag⟩ := hs.home_lt id tag ht
      exact ⟨Nat.lt_succ_of_lt hid, htag⟩
  · intro s hmem hh
    rcases Registry.mem_insertOrdered.mp hmem with rfl | hmem
    · simp at hh
    · obtain ⟨hkind, hhome⟩ := hs.root s hmem hh
      exact ⟨hkind, (if_neg (hkeep s hmem)).trans hhome⟩
  · intro s hmem m hm
    rcases Registry.mem_insertOrdered.mp hmem with rfl | hmem
    · simp only [Handle.line.injEq] at hm
      subst hm
      exact ⟨_, hget, (if_pos rfl).trans hget⟩
    · obtain ⟨tag, hn, ht⟩ := hs.standing s hmem m hm
      exact ⟨tag, hn, (if_neg (hkeep s hmem)).trans ht⟩
  · intro id tag ht hmem
    dsimp only at ht
    split at ht
    · next hid => exact ⟨_, Registry.mem_insertOrdered.mpr (.inl rfl), hid.symm⟩
    · obtain ⟨s, hin, hid⟩ := hs.registered id tag ht hmem
      exact ⟨s, Registry.mem_insertOrdered.mpr (.inr hin), hid⟩

/-- What a run of a tagged document comes to, when the document without tags becomes `d`: it is sound
and has `d`, or it stops because the counter of `d` is too great. -/
inductive Reaches : Checked Tagged → Document → Prop
  | sound {t : Tagged} (hs : t.Sound) (ht : t.document.registry.IsNumbered) :
    Reaches (.ok t) t.document
  | stopped {d : Document} (hd : ¬ d.registry.IsNumbered) : Reaches (.error .tooManySubjects) d

theorem Reaches.of_eq_numbered {f : Document → Tagged} (hs : (f d).Sound)
    (hd : (f d).document = d) : Reaches (f <$> d.numbered) d := by
  by_cases h : d.registry.IsNumbered
  · rw [Document.numbered_of_isNumbered h, Checked.map_ok]
    have hreaches := Reaches.sound hs (hd.symm ▸ h)
    rwa [hd] at hreaches
  · rw [Document.numbered_of_not_isNumbered h, Checked.map_error]
    exact .stopped h

/-- A change of the document is a change of the tags, which stay sound. -/
theorem Sound.step (hs : t.Sound) (ht : t.document.registry.IsNumbered) {c : Change}
    (hstep : t.document.Step c d) : Reaches (t.change c) d := by
  rw [change, hstep.changeNumbered_eq ht]
  cases hstep with
  | insert hle => exact .of_eq_numbered (hs.insert hle _) rfl
  | rewrite hl hset =>
    refine .of_eq_numbered ?_ rfl
    exact { hs with length_eq := by rw [List.length_set]; exact hs.length_eq }
  | delete hle hstop => exact .of_eq_numbered (hs.delete hle hstop) rfl
  | register hlt => exact .of_eq_numbered (hs.register hlt _) rfl

theorem Sound.changeAll (hs : t.Sound) (ht : t.document.registry.IsNumbered) {cs : List Change}
    (h : t.document.Follows cs d) : Reaches (t.changeAll cs) d := by
  generalize hd : t.document = start at h
  induction h generalizing t with
  | nil d => exact hd ▸ .sound hs ht
  | cons _ hstep hrest ih =>
    subst hd
    have hfirst := hs.step ht hstep
    rw [changeAll, List.foldlM_cons]
    generalize t.change _ = r at hfirst ⊢
    cases hfirst with
    | sound hs₁ ht₁ => exact ih hs₁ ht₁ rfl
    | stopped hd₁ => exact .stopped fun hd => hd₁ (hrest.nextId_le.trans hd)

theorem Sound.performAll (hs : t.Sound) (ht : t.document.registry.IsNumbered)
    (hv : t.document.Valid) (es : List Edit) :
    ∃ d, t.document.performAll es = .ok d ∧ Reaches (t.performAll es) d := by
  induction es generalizing t with
  | nil => exact ⟨t.document, rfl, .sound hs ht⟩
  | cons e es ih =>
    obtain ⟨cs, d₁, answer, hperform, hcs, hfollows⟩ := hv.exists_perform e
    have hfirst := hs.changeAll ht hfollows
    have hv₁ := hv.follows hfollows
    rw [Document.performAll_cons, hperform, Checked.map_ok, Checked.ok_bind, Tagged.performAll,
      List.foldlM_cons, perform, hcs, Checked.ok_bind]
    generalize t.changeAll cs = r at hfirst ⊢
    cases hfirst with
    | sound hs₁ ht₁ => exact ih hs₁ ht₁ hv₁
    | stopped hd₁ =>
      obtain ⟨cs', d, hrest, hfollows'⟩ := hv₁.exists_follows es
      exact ⟨d, hrest, .stopped fun hd => hd₁ (hfollows'.nextId_le.trans hd)⟩

end Tagged
end SpriteConfig
