import SpriteConfig.Proofs.Registry
/-!
# The order of the subjects

The subjects are listed in the order of their lines, so that no two of them share a line. They stay
in order when a line is inserted, when lines are deleted, and when a subject is registered on a line
that has none.
-/
namespace SpriteConfig
namespace Handle

variable {a b c : Handle}

theorem ne_of_before (h : a.before b = true) : a ≠ b := by
  rintro rfl
  cases a <;> simp [before] at h

theorem before_trans (hab : a.before b = true) (hbc : b.before c = true) : a.before c = true := by
  cases c with
  | root => cases b <;> simp [before] at hbc
  | line n =>
    cases b with
    | root => cases a <;> simp [before] at hab
    | line m =>
      cases a with
      | root => rfl
      | line k =>
        simp only [before, decide_eq_true_eq] at hab hbc ⊢
        omega

theorem before_or_before (h : a ≠ b) : a.before b = true ∨ b.before a = true := by
  cases a with
  | root =>
    cases b with
    | root => exact absurd rfl h
    | line n => exact .inl rfl
  | line m =>
    cases b with
    | root => exact .inr rfl
    | line n =>
      simp only [ne_eq, line.injEq] at h
      simp only [before, decide_eq_true_eq]
      omega

theorem before_asymm (h : a.before b = true) : ¬ b.before a = true :=
  fun h' => ne_of_before (before_trans h h') rfl

theorem before_moved (h : a.before b = true) (after : Handle) :
    (a.moved after 1).before (b.moved after 1) = true := by
  cases b with
  | root => cases a <;> simp [before] at h
  | line n =>
    rw [moved_line]
    cases a with
    | root => rfl
    | line m =>
      rw [moved_line]
      simp only [before, decide_eq_true_eq] at h ⊢
      split <;> split <;> omega

end Handle

def Subject.Precedes (s t : Subject) : Prop := s.handle.before t.handle = true

namespace Registry

variable {r : Registry} {s t : Subject} {ss : List Subject}

theorem perm_insertOrdered (s : Subject) (ss : List Subject) :
    (insertOrdered s ss).Perm (s :: ss) := by
  induction ss with
  | nil => exact .refl _
  | cons a ss ih =>
    rw [insertOrdered]
    split
    · exact .refl _
    · exact (ih.cons a).trans (.swap s a ss)

theorem pairwise_insertOrdered (h : ss.Pairwise Subject.Precedes)
    (hs : ∀ t ∈ ss, t.handle ≠ s.handle) : (insertOrdered s ss).Pairwise Subject.Precedes := by
  induction ss with
  | nil => exact List.pairwise_singleton _ _
  | cons a ss ih =>
    simp only [List.forall_mem_cons] at hs
    obtain ⟨ha, hss⟩ := List.pairwise_cons.mp h
    rw [insertOrdered]
    split
    · next hbefore =>
      refine List.pairwise_cons.mpr ⟨?_, h⟩
      intro t ht
      rcases List.mem_cons.mp ht with rfl | ht
      · exact hbefore
      · exact Handle.before_trans hbefore (ha t ht)
    · next hnot =>
      refine List.pairwise_cons.mpr ⟨?_, ih hss hs.2⟩
      intro t ht
      rcases mem_insertOrdered.mp ht with rfl | ht
      · exact (Handle.before_or_before hs.1).resolve_right hnot
      · exact ha t ht

def Ordered (r : Registry) : Prop := r.subjects.Pairwise Subject.Precedes

theorem Ordered.shiftAfter (h : r.Ordered) (after : Handle) : (r.shiftAfter after 1).Ordered := by
  rw [Ordered, Registry.shiftAfter, List.pairwise_map]
  exact List.Pairwise.imp (fun hst => Handle.before_moved hst after) h

theorem precedes_moveAfter {start stop : Nat} (hle : start ≤ stop) (h : s.Precedes t)
    (hs : s ∈ r.subjects) (ht : t ∈ r.subjects) (hs' : s.id ∉ r.gone start stop)
    (ht' : t.id ∉ r.gone start stop) :
    (moveAfter stop (r.gone start stop) (· - (stop - start)) s).Precedes
      (moveAfter stop (r.gone start stop) (· - (stop - start)) t) := by
  cases hn : t.handle with
  | root => cases hm : s.handle <;> simp [Subject.Precedes, hm, hn, Handle.before] at h
  | line n =>
    have hnout := lt_or_le_of_not_mem_gone ht ht' hn
    cases hm : s.handle with
    | root =>
      simp only [Subject.Precedes, Registry.moveAfter, hm, hn]
      split <;> rfl
    | line m =>
      have hmout := lt_or_le_of_not_mem_gone hs hs' hm
      simp only [Subject.Precedes, hm, hn, Handle.before, decide_eq_true_eq] at h
      simp only [Subject.Precedes, Registry.moveAfter, hm, hn]
      split <;> split <;> simp only [Handle.before, decide_eq_true_eq] <;> omega

theorem Ordered.deleteLines (h : r.Ordered) {start stop : Nat} (hle : start ≤ stop) :
    (r.deleteLines start stop).Ordered := by
  rw [Ordered, subjects_deleteLines, List.pairwise_map]
  refine List.Pairwise.imp_of_mem ?_ (List.Pairwise.filter _ h)
  intro s t hs ht hst
  obtain ⟨hs, hskept⟩ := List.mem_filter.mp hs
  obtain ⟨ht, htkept⟩ := List.mem_filter.mp ht
  exact precedes_moveAfter hle hst hs ht (by simpa using hskept) (by simpa using htkept)

theorem Ordered.add (h : r.Ordered) {kind : SubjectKind} {handle : Handle}
    (hfree : ∀ s ∈ r.subjects, s.handle ≠ handle) (parent : Option SubjectId) :
    (r.add kind handle parent).Ordered :=
  pairwise_insertOrdered h hfree

theorem Ordered.nodup_handles (h : r.Ordered) : (r.subjects.map Subject.handle).Nodup := by
  rw [List.Nodup, List.pairwise_map]
  exact List.Pairwise.imp Handle.ne_of_before h

theorem Ordered.sublist_pair (h : r.Ordered) (hs : s ∈ r.subjects) (ht : t ∈ r.subjects)
    (hst : s.Precedes t) : [s, t].Sublist r.subjects := by
  rw [Ordered] at h
  generalize r.subjects = ss at h hs ht
  induction ss with
  | nil => simp at hs
  | cons a ss ih =>
    obtain ⟨ha, hss⟩ := List.pairwise_cons.mp h
    rcases List.mem_cons.mp hs with rfl | hs'
    · rcases List.mem_cons.mp ht with rfl | ht'
      · exact absurd rfl (Handle.ne_of_before hst)
      · exact (List.singleton_sublist.mpr ht').cons_cons s
    · rcases List.mem_cons.mp ht with rfl | ht'
      · exact absurd (ha s hs') (Handle.before_asymm hst)
      · exact (ih hss hs' ht').cons a

theorem Ordered.head?_eq_root (h : r.Ordered) (hs : s ∈ r.subjects) (hroot : s.handle = .root) :
    r.subjects.head? = some s := by
  rw [Ordered] at h
  cases hss : r.subjects with
  | nil => simp [hss] at hs
  | cons a ss =>
    rw [hss] at h hs
    rcases List.mem_cons.mp hs with rfl | hs
    · rfl
    · have ha : a.Precedes s := (List.pairwise_cons.mp h).1 s hs
      rw [Subject.Precedes, hroot] at ha
      cases a.handle <;> simp [Handle.before] at ha

end Registry
end SpriteConfig
