import SpriteConfig.Proofs.Order
/-!
# Scanning lines for subjects

A scan goes over the lines and lists the subjects that they introduce. All it knows of the lines
before is their scope: the latest sheet and the latest input. Which numbers the subjects get is left
open, so that the subjects of a document that was edited can be a scan of its lines as well as those
of a document that was just read.
-/
namespace SpriteConfig

structure Scope where
  sheet : Option SubjectId
  input : Option SubjectId
  deriving DecidableEq, Repr

/-- What subjects of a kind belong to. -/
def SubjectKind.owner? : SubjectKind → Option SubjectKind
  | sheet => none
  | input => some .sheet
  | sprite => some .input

namespace Scope

def owner? (σ : Scope) : SubjectKind → Option SubjectId
  | .sheet => none
  | .input => σ.sheet
  | .sprite => σ.input

def introduced? (σ : Scope) (l : Line) : Option SubjectKind :=
  if Registry.isSheetLine l then some .sheet
  else if l.definition = SubjectKind.input.token then some .input
  else if l.definition = SubjectKind.sprite.token ∧ σ.input.isSome then some .sprite
  else none

def enter (σ : Scope) (id : SubjectId) : SubjectKind → Scope
  | .sheet => { σ with sheet := some id }
  | .input => { σ with input := some id }
  | .sprite => σ

theorem owner?_enter (σ : Scope) (id : SubjectId) (kind k : SubjectKind) :
    (σ.enter id kind).owner? k = if k.owner? = some kind then some id else σ.owner? k := by
  cases kind <;> cases k <;> rfl

end Scope

/-- `Scans n σ ls ss τ` holds if the lines `ls`, the first of which is number `n`, introduce the
subjects `ss` in the scope `σ`, and the scope after them is `τ`. -/
inductive Scans : Nat → Scope → List Line → List Subject → Scope → Prop
  | nil (n : Nat) (σ : Scope) : Scans n σ [] [] σ
  | subject {n : Nat} {σ τ : Scope} {l : Line} {ls : List Line} {ss : List Subject}
    {kind : SubjectKind} (id : SubjectId) (hl : σ.introduced? l = some kind)
    (hrest : Scans (n + 1) (σ.enter id kind) ls ss τ) :
    Scans n σ (l :: ls) (⟨id, kind, .line n, σ.owner? kind⟩ :: ss) τ
  | other {n : Nat} {σ τ : Scope} {l : Line} {ls : List Line} {ss : List Subject}
    (hl : σ.introduced? l = none) (hrest : Scans (n + 1) σ ls ss τ) : Scans n σ (l :: ls) ss τ

/-- Whether a line introduces a subject of a kind; a sheet is not indented. -/
def Registry.Suits (_ : SubjectId) (kind : SubjectKind) (l : Line) : Prop :=
  l.definition = kind.token ∧ (kind = .sheet → l.level = 0)

@[simp] theorem SubjectKind.token_inj {kind k : SubjectKind} :
    kind.token = k.token ↔ kind = k := by
  cases kind <;> cases k <;> decide

theorem Scope.introduced?_eq_some_iff {σ : Scope} {l : Line} {kind : SubjectKind} :
    σ.introduced? l = some kind ↔
      l.definition = kind.token ∧ (kind = .sheet → l.level = 0) ∧
        (kind = .sprite → σ.input.isSome = true) := by
  constructor
  · intro h
    simp only [introduced?, Registry.isSheetLine, Bool.and_eq_true, decide_eq_true_eq] at h
    split at h
    · next hl => exact Option.some.inj h ▸ ⟨hl.2, fun _ => hl.1, by simp⟩
    · split at h
      · next hl => exact Option.some.inj h ▸ ⟨hl, by simp, by simp⟩
      · split at h
        · next hl => exact Option.some.inj h ▸ ⟨hl.1, by simp, fun _ => hl.2⟩
        · simp at h
  · rintro ⟨hdef, hlevel, hinput⟩
    cases kind with
    | sheet => simp [introduced?, Registry.isSheetLine, hdef, hlevel rfl]
    | input => simp [introduced?, Registry.isSheetLine, hdef]
    | sprite => simp [introduced?, Registry.isSheetLine, hdef, hinput rfl]

theorem Scope.suits_of_introduced? {σ : Scope} {l : Line} {kind : SubjectKind}
    (h : σ.introduced? l = some kind) (id : SubjectId) : Registry.Suits id kind l :=
  ⟨(introduced?_eq_some_iff.mp h).1, (introduced?_eq_some_iff.mp h).2.1⟩

open Registry (subjectsFrom ofLines isSheetLine)

theorem scans_subjectsFrom (n id : Nat) (σ : Scope) (ls : List Line) :
    ∃ τ, Scans n σ ls (subjectsFrom n id σ.sheet σ.input ls) τ := by
  induction ls generalizing n id σ with
  | nil => exact ⟨σ, .nil n σ⟩
  | cons l ls ih =>
    rw [subjectsFrom]
    split
    · next hl =>
      obtain ⟨τ, h⟩ := ih (n + 1) (id + 1) (σ.enter id .sheet)
      exact ⟨τ, .subject id (if_pos hl) h⟩
    · next hsheet =>
      split
      · next hl =>
        obtain ⟨τ, h⟩ := ih (n + 1) (id + 1) (σ.enter id .input)
        exact ⟨τ, .subject id ((if_neg hsheet).trans (if_pos hl)) h⟩
      · next hinput =>
        split
        · next hl =>
          obtain ⟨τ, h⟩ := ih (n + 1) (id + 1) σ
          have hkind : σ.introduced? l = some .sprite :=
            (if_neg hsheet).trans ((if_neg hinput).trans (if_pos hl))
          exact ⟨τ, .subject id hkind h⟩
        · next hsprite =>
          obtain ⟨τ, h⟩ := ih (n + 1) id σ
          exact ⟨τ, .other ((if_neg hsheet).trans ((if_neg hinput).trans (if_neg hsprite))) h⟩

namespace Scans

variable {n : Nat} {σ τ υ : Scope} {ls ms : List Line} {ss ts : List Subject}

theorem length_le (h : Scans n σ ls ss τ) : ss.length ≤ ls.length := by
  induction h with
  | nil => exact Nat.le_refl 0
  | subject _ _ _ ih => exact Nat.succ_le_succ ih
  | other _ _ ih => exact Nat.le_succ_of_le ih

theorem append (h : Scans n σ ls ss τ) (h' : Scans (n + ls.length) τ ms ts υ) :
    Scans n σ (ls ++ ms) (ss ++ ts) υ := by
  induction h with
  | nil n σ => exact h'
  | subject id hl _ ih =>
    refine .subject id hl (ih ?_)
    rwa [List.length_cons, Nat.add_comm _ 1, ← Nat.add_assoc] at h'
  | other hl _ ih =>
    refine .other hl (ih ?_)
    rwa [List.length_cons, Nat.add_comm _ 1, ← Nat.add_assoc] at h'

theorem exists_of_append {us : List Subject} (h : Scans n σ (ls ++ ms) us υ) :
    ∃ ss τ ts, us = ss ++ ts ∧ Scans n σ ls ss τ ∧ Scans (n + ls.length) τ ms ts υ := by
  induction ls generalizing n σ us with
  | nil => exact ⟨[], σ, us, rfl, .nil n σ, h⟩
  | cons l ls ih =>
    rw [List.length_cons, Nat.add_comm ls.length, ← Nat.add_assoc]
    cases h with
    | subject id hl hrest =>
      obtain ⟨ss, τ, ts, rfl, hss, hts⟩ := ih hrest
      exact ⟨_, τ, ts, rfl, .subject id hl hss, hts⟩
    | other hl hrest =>
      obtain ⟨ss, τ, ts, rfl, hss, hts⟩ := ih hrest
      exact ⟨ss, τ, ts, rfl, .other hl hss, hts⟩

theorem exists_line (h : Scans n σ ls ss τ) {s : Subject} (hs : s ∈ ss) :
    ∃ m l, s.handle = .line (n + m) ∧ ls[m]? = some l ∧ Registry.Suits s.id s.kind l := by
  induction h with
  | nil => simp at hs
  | subject id hl _ ih =>
    rcases List.mem_cons.mp hs with rfl | hs
    · exact ⟨0, _, rfl, rfl, Scope.suits_of_introduced? hl id⟩
    · obtain ⟨m, l, hm, hl, hsuits⟩ := ih hs
      exact ⟨m + 1, l, by rw [hm, Nat.add_assoc, Nat.add_comm 1], hl, hsuits⟩
  | other _ _ ih =>
    obtain ⟨m, l, hm, hl, hsuits⟩ := ih hs
    exact ⟨m + 1, l, by rw [hm, Nat.add_assoc, Nat.add_comm 1], hl, hsuits⟩

theorem exists_lt (h : Scans n σ ls ss τ) {s : Subject} (hs : s ∈ ss) :
    ∃ m < ls.length, s.handle = .line (n + m) := by
  obtain ⟨m, l, hm, hl, -⟩ := h.exists_line hs
  exact ⟨m, (List.getElem?_eq_some_iff.mp hl).1, hm⟩

theorem pairwise_precedes (h : Scans n σ ls ss τ) : ss.Pairwise Subject.Precedes := by
  induction h with
  | nil => exact .nil
  | @subject n σ τ l ls ss kind id hl hrest ih =>
    refine List.pairwise_cons.mpr ⟨?_, ih⟩
    intro s hs
    obtain ⟨m, -, hm⟩ := hrest.exists_lt hs
    simp only [Subject.Precedes, hm, Handle.before, decide_eq_true_eq]
    omega
  | other _ _ ih => exact ih

theorem owned (h : Scans n σ ls ss τ) {s : Subject} (hs : s ∈ ss) {p : SubjectId}
    (hp : s.parent = some p) :
    σ.owner? s.kind = some p ∨
      ∃ q ∈ ss, q.id = p ∧ s.kind.owner? = some q.kind ∧ q.Precedes s := by
  have hordered := h.pairwise_precedes
  induction h with
  | nil => simp at hs
  | @subject n σ τ l ls ss kind id hl hrest ih =>
    obtain ⟨hfirst, hordered⟩ := List.pairwise_cons.mp hordered
    rcases List.mem_cons.mp hs with rfl | hs'
    · exact .inl hp
    · rcases ih hs' hordered with hσ | ⟨q, hq, hrest⟩
      · rw [Scope.owner?_enter] at hσ
        split at hσ
        · next howner =>
          exact .inr ⟨_, List.mem_cons_self, Option.some.inj hσ, howner, hfirst s hs'⟩
        · exact .inl hσ
      · exact .inr ⟨q, List.mem_cons_of_mem _ hq, hrest⟩
  | other hl hrest ih => exact ih hs hordered

end Scans

namespace Registry

/-- Whether subjects are the sheet before the first line, which is there if no line is a sheet. -/
def IsRoot (ls : List Line) (root : List Subject) : Prop :=
  if ls.any isSheetLine then root = [] else ∃ id, root = [⟨id, .sheet, .root, none⟩]

/-- Whether the subjects are a scan of lines, after the sheet before the first line. -/
def Scanned (r : Registry) (ls : List Line) : Prop :=
  ∃ root ss τ, r.subjects = root ++ ss ∧ IsRoot ls root ∧
    Scans 0 ⟨root.head?.map Subject.id, none⟩ ls ss τ

variable {r : Registry} {ls : List Line} {root : List Subject} {s : Subject}

theorem IsRoot.eq_of_mem (h : IsRoot ls root) (hs : s ∈ root) :
    s = ⟨s.id, .sheet, .root, none⟩ ∧ root = [s] := by
  rw [IsRoot] at h
  split at h
  · simp [h] at hs
  · obtain ⟨id, rfl⟩ := h
    rw [List.mem_singleton.mp hs]
    exact ⟨rfl, rfl⟩

theorem scanned_ofLines (ls : List Line) : (ofLines ls).Scanned ls := by
  simp only [Scanned, IsRoot, ofLines]
  split
  · obtain ⟨τ, h⟩ := scans_subjectsFrom 0 0 ⟨none, none⟩ ls
    exact ⟨[], _, τ, rfl, rfl, h⟩
  · obtain ⟨τ, h⟩ := scans_subjectsFrom 0 1 ⟨some 0, none⟩ ls
    exact ⟨[⟨0, .sheet, .root, none⟩], _, τ, rfl, ⟨0, rfl⟩, h⟩

theorem Scanned.length_le (h : r.Scanned ls) : r.subjects.length ≤ ls.length + 1 := by
  obtain ⟨root, ss, τ, hsubjects, hroot, hscan⟩ := h
  have hle := hscan.length_le
  have hone : root.length ≤ 1 := by
    cases root with
    | nil => exact Nat.zero_le 1
    | cons s ss =>
      exact Nat.le_of_eq (congrArg List.length (hroot.eq_of_mem List.mem_cons_self).2)
  rw [hsubjects, List.length_append]
  omega

theorem Scanned.ordered (h : r.Scanned ls) : r.Ordered := by
  obtain ⟨root, ss, τ, hsubjects, hroot, hscan⟩ := h
  rw [Ordered, hsubjects]
  refine List.pairwise_append.mpr ⟨?_, hscan.pairwise_precedes, ?_⟩
  · rw [IsRoot] at hroot
    split at hroot
    · exact hroot ▸ .nil
    · obtain ⟨id, rfl⟩ := hroot
      exact List.pairwise_singleton _ _
  · intro s hs t ht
    obtain ⟨m, -, hm⟩ := hscan.exists_lt ht
    rw [Subject.Precedes, (hroot.eq_of_mem hs).1, hm]
    rfl

theorem Scanned.stands (h : r.Scanned ls) : r.Stands ls Suits := by
  intro s hs n hn
  obtain ⟨root, ss, τ, hsubjects, hroot, hscan⟩ := h
  rcases List.mem_append.mp (hsubjects ▸ hs) with hs | hs
  · rw [(hroot.eq_of_mem hs).1] at hn
    simp at hn
  · obtain ⟨m, l, hm, hl, hsuits⟩ := hscan.exists_line hs
    rw [hn, Nat.zero_add, Handle.line.injEq] at hm
    exact ⟨l, hm ▸ hl, hsuits⟩

theorem Scanned.isSheet (h : r.Scanned ls) (hs : s ∈ r.subjects) (hh : s.handle = .root) :
    s.kind = .sheet := by
  obtain ⟨root, ss, τ, hsubjects, hroot, hscan⟩ := h
  rcases List.mem_append.mp (hsubjects ▸ hs) with hs | hs
  · rw [(hroot.eq_of_mem hs).1]
  · obtain ⟨m, -, hm⟩ := hscan.exists_lt hs
    simp [hh] at hm

theorem Scanned.owned (h : r.Scanned ls) (hs : s ∈ r.subjects) {p : SubjectId}
    (hp : s.parent = some p) :
    ∃ q ∈ r.subjects, q.id = p ∧ s.kind.owner? = some q.kind ∧ q.Precedes s := by
  obtain ⟨root, ss, τ, hsubjects, hroot, hscan⟩ := h
  rw [hsubjects]
  rcases List.mem_append.mp (hsubjects ▸ hs) with hs | hs
  · rw [(hroot.eq_of_mem hs).1] at hp
    simp at hp
  · obtain ⟨m, -, hm⟩ := hscan.exists_lt hs
    rcases hscan.owned hs hp with hσ | ⟨q, hq, hrest⟩
    · cases hkind : s.kind with
      | sheet => simp [hkind, Scope.owner?] at hσ
      | sprite => simp [hkind, Scope.owner?] at hσ
      | input =>
        simp only [hkind, Scope.owner?, Option.map_eq_some_iff] at hσ
        obtain ⟨q, hhead, hid⟩ := hσ
        have hq := List.mem_of_head? hhead
        obtain ⟨hform, -⟩ := hroot.eq_of_mem hq
        refine ⟨q, List.mem_append_left ss hq, hid, ?_, ?_⟩
        · rw [hform]
          rfl
        · rw [Subject.Precedes, hform, hm]
          rfl
    · exact ⟨q, List.mem_append_right root hq, hrest⟩

theorem stands_ofLines (ls : List Line) : (ofLines ls).Stands ls Introduces := by
  intro s hs n hn
  obtain ⟨l, hl, hdef, -⟩ := (scanned_ofLines ls).stands s hs n hn
  exact ⟨l, hl, hdef⟩

end Registry
end SpriteConfig
