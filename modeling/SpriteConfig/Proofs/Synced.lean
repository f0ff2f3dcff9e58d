import SpriteConfig.Proofs.Session
/-!
# What a session remembers

A session rereads a text only if it differs from the text that it remembers. That is right as long
as it remembers the text of its document: whatever is reread, edited and committed in any order, it
does so or still has edits waiting, provided that no host refuses a patch. A commit that was due and
is refused is where this fails: the edits stay in the document, but they wait no longer.
-/
namespace SpriteConfig

/-- Hosts of this type take every patch that is computed for their own text. -/
def Host.Accepting (β : Type) [Host β] : Prop :=
  ∀ (host : β) (proposed : Text) (p : Patch),
    Patch.computeWith (Host.text host) (Host.lineBreak host) proposed = .ok (some p) →
      ∃ host', Host.applyPatch host p = .ok host'

theorem Buffer.accepting : Host.Accepting Buffer := by
  intro b proposed p hp
  have hp : Patch.computeWith b.text b.lineBreak proposed = .ok (some p) := hp
  have hne : b.lineBreak.split b.text ≠ LineBreak.lf.split proposed := by
    intro heq
    rw [Patch.computeWith_of_eq heq] at hp
    cases hp
  obtain ⟨p', before, middle, after, hp', hcuts, -⟩ := Patch.exists_cuts_computeWith hne
  obtain rfl : p' = p := by simpa using hp'.symm.trans hp
  obtain ⟨b', happly, -⟩ := exists_applyPatch hcuts
  exact ⟨b', happly⟩

namespace Session

/-- What can be asked of a session, with the host that is there at that time. -/
inductive Call (β : Type)
  | reread (text : Text)
  | rereadBytes (bytes : List UInt8)
  | commit (host : β)
  | edit (host : β) (change : Document → Checked Document)
  | editLater (now : Nat) (change : Document → Checked Document)
  | commitDue (now : Nat) (host : β)

variable {β : Type} [Host β] {s s' : Session}

/-- The session after a call, and whether the call compared the document with a text. -/
def call (s : Session) : Call β → Checked (Session × Bool)
  | .reread text => .ok ((s.reread text).1, true)
  | .rereadBytes bytes => .ok ((s.rereadBytes bytes).1, (Utf8.decode bytes).isOk)
  | .commit host => do
    let c ← s.commit host
    return (c.session, true)
  | .edit host change => do
    let (c, _) ← s.edit host fun d => (·, ()) <$> change d
    return (c.session, true)
  | .editLater now change => do
    let (s, _) ← s.editLater now fun d => (·, ()) <$> change d
    return (s, false)
  | .commitDue now host => do
    let c ← s.commitDue now host
    return (c.session, s.debounce.isDue now)

/-- The session after some calls, and whether one of them compared the document with a text. -/
def callAll (s : Session) : List (Call β) → Checked (Session × Bool)
  | [] => .ok (s, false)
  | c :: cs => do
    let (s, first) ← s.call c
    let (s, later) ← s.callAll cs
    return (s, first || later)

/-- The session remembers no text but that of its document, unless edits are waiting. -/
def Current (s : Session) : Prop :=
  s.isWaiting = true ∨ ∀ text, s.synced = some text → text = s.document.source

theorem current_empty (options : Options) : (empty options).Current := .inr nofun

theorem commit_of_accepting (hβ : Host.Accepting β) (s : Session) (host : β) :
    ∃ host' patch, s.commit host =
      .ok ⟨{ s with synced := some s.document.source, debounce := s.debounce.clear }, host',
        .ok patch⟩ := by
  by_cases h : (Host.lineBreak host).split (Host.text host) = LineBreak.lf.split s.document.source
  · exact ⟨host, none, commit_of_eq h⟩
  · obtain ⟨p, -, -, -, hp, -, -⟩ := Patch.exists_cuts_computeWith h
    obtain ⟨host', happly⟩ := hβ host _ p hp
    refine ⟨host', some p, ?_⟩
    rw [commit]
    simp only [hp, Checked.ok_bind, happly]
    rfl

theorem reread_cases (s : Session) (text : Text) :
    s.synced = some ((LineBreak.detect text).normalize text) ∧ s.reread text = (s, false) ∨
      (s.reread text).1.isWaiting = false ∧
        (s.reread text).1.synced = some ((LineBreak.detect text).normalize text) ∧
        (s.reread text).1.document.source = (LineBreak.detect text).normalize text := by
  by_cases h : s.synced = some ((LineBreak.detect text).normalize text)
  · exact .inl ⟨h, by rw [reread, if_pos h]⟩
  · right
    rw [reread, if_neg h]
    exact ⟨rfl, rfl, Document.source_parse _ _⟩

theorem Current.reread (h : s.Current) (text : Text) :
    (s.reread text).1.Current ∧ (s.reread text).1.synced ≠ none := by
  rcases s.reread_cases text with ⟨hsynced, heq⟩ | ⟨-, hsynced, hsource⟩
  · rw [heq]
    exact ⟨h, by simp [hsynced]⟩
  · refine ⟨.inr fun t ht => ?_, by simp [hsynced]⟩
    rw [hsource]
    exact (Option.some.inj (hsynced.symm.trans ht)).symm

theorem current_committed (s : Session) :
    let settled := { s with synced := some s.document.source, debounce := s.debounce.clear }
    settled.Current ∧ settled.synced ≠ none :=
  ⟨.inr fun _ ht => (Option.some.inj ht).symm, nofun⟩

/-- Whether the change that a call makes to the document succeeds, if it makes one. -/
def Call.Runs (s : Session) : Call β → Prop
  | .edit _ change | .editLater _ change => ∃ d, change s.document = .ok d
  | .reread _ | .rereadBytes _ | .commit _ | .commitDue _ _ => True

theorem runs_of_call {c : Call β} {r : Session × Bool} (hcall : s.call c = .ok r) : c.Runs s := by
  cases c with
  | edit host change =>
    obtain ⟨_, hedit, -⟩ := Checked.bind_eq_ok.mp hcall
    obtain ⟨_, hchange, -⟩ := Checked.bind_eq_ok.mp hedit
    obtain ⟨d, hd, -⟩ := Checked.map_eq_ok.mp hchange
    exact ⟨d, hd⟩
  | editLater now change =>
    obtain ⟨_, hlater, -⟩ := Checked.bind_eq_ok.mp hcall
    obtain ⟨_, hchange, -⟩ := Checked.bind_eq_ok.mp hlater
    obtain ⟨d, hd, -⟩ := Checked.map_eq_ok.mp hchange
    exact ⟨d, hd⟩
  | reread text => trivial
  | rereadBytes bytes => trivial
  | commit host => trivial
  | commitDue now host => trivial

/-- A call keeps what the session remembers right, and a session that once compared its document
with a text remembers one from then on. -/
theorem Current.exists_call (hβ : Host.Accepting β) (h : s.Current) {c : Call β} (hc : c.Runs s) :
    ∃ s' compared, s.call c = .ok (s', compared) ∧ s'.Current ∧
      (compared = true ∨ s.synced ≠ none → s'.synced ≠ none) := by
  cases c with
  | reread text => exact ⟨_, true, rfl, (h.reread text).imp_right fun hsome _ => hsome⟩
  | rereadBytes bytes =>
    refine ⟨_, _, rfl, ?_⟩
    rw [rereadBytes]
    cases hbytes : Utf8.decode bytes with
    | ok text => exact (h.reread text).imp_right fun hsome _ => hsome
    | error e => exact ⟨h, fun hor => hor.resolve_left (by simp [Except.isOk, Except.toBool])⟩
  | commit host =>
    obtain ⟨host', patch, hcommit⟩ := s.commit_of_accepting hβ host
    refine ⟨_, true, ?_, s.current_committed.imp_right fun hsome _ => hsome⟩
    rw [call, hcommit]
    rfl
  | edit host change =>
    obtain ⟨d, hd⟩ := hc
    obtain ⟨host', patch, hcommit⟩ := ({ s with document := d }).commit_of_accepting hβ host
    refine ⟨_, true, ?_,
      ({ s with document := d }).current_committed.imp_right fun hsome _ => hsome⟩
    rw [call, edit, hd]
    simp only [Checked.map_ok, Checked.ok_bind, hcommit]
    rfl
  | editLater now change =>
    obtain ⟨d, hd⟩ := hc
    refine ⟨{ s with document := d, debounce := s.debounce.noteEdit now }, false, ?_, .inl rfl,
      fun hor => hor.resolve_left (by simp)⟩
    rw [call, editLater, hd]
    rfl
  | commitDue now host =>
    by_cases hdue : s.debounce.isDue now = true
    · obtain ⟨host', patch, hcommit⟩ :=
        ({ s with debounce := s.debounce.clear }).commit_of_accepting hβ host
      refine ⟨_, s.debounce.isDue now, ?_,
        ({ s with debounce := s.debounce.clear }).current_committed.imp_right fun hsome _ => hsome⟩
      rw [call, commitDue_of_isDue hdue, hcommit]
      rfl
    · refine ⟨s, s.debounce.isDue now, ?_, h, fun hor => hor.resolve_left hdue⟩
      rw [call, commitDue_of_not_isDue hdue]
      rfl

theorem Current.callAll (hβ : Host.Accepting β) (h : s.Current) {cs : List (Call β)}
    {compared : Bool} (hrun : s.callAll cs = .ok (s', compared)) :
    s'.Current ∧ (compared = true ∨ s.synced ≠ none → s'.synced ≠ none) := by
  induction cs generalizing s compared with
  | nil =>
    obtain ⟨rfl, rfl⟩ := Prod.mk.inj (Except.ok.inj hrun)
    exact ⟨h, fun hor => hor.resolve_left (by simp)⟩
  | cons c cs ih =>
    obtain ⟨⟨s₁, first⟩, hcall, hrun⟩ := Checked.bind_eq_ok.mp hrun
    obtain ⟨⟨s₂, later⟩, hrest, hret⟩ := Checked.bind_eq_ok.mp hrun
    obtain ⟨rfl, rfl⟩ := Prod.mk.inj (Except.ok.inj hret)
    obtain ⟨_, _, hcall', h₁, hsome₁⟩ := h.exists_call hβ (runs_of_call hcall)
    obtain ⟨rfl, rfl⟩ := Prod.mk.inj (Except.ok.inj (hcall'.symm.trans hcall))
    obtain ⟨h', hsome'⟩ := ih h₁ hrest
    refine ⟨h', fun hor => hsome' ?_⟩
    by_cases hlater : later = true
    · exact .inl hlater
    · exact .inr (hsome₁ (hor.imp_left fun hcompared => by simpa [hlater] using hcompared))

/-- Skipping a reread is sound: a session that has compared its document with a text, and has no
edits waiting, remembers the text of its document. So if none are waiting after a reread, the
document stands for what was read, whether or not it was read anew. -/
theorem callAll_remembers_source (hβ : Host.Accepting β) {options : Options} {cs : List (Call β)}
    {compared : Bool} (hrun : (empty options).callAll cs = .ok (s, compared)) :
    (compared = true → s.isWaiting = true ∨ s.synced = some s.document.source) ∧
      (∀ text, (s.reread text).1.isWaiting = false →
        (s.reread text).1.document.source = (LineBreak.detect text).normalize text) ∧
      ∀ bytes e, Utf8.decode bytes = .error e → s.rereadBytes bytes = (s, false) := by
  obtain ⟨hcurrent, hsome⟩ := (current_empty options).callAll hβ hrun
  refine ⟨fun hcompared => hcurrent.imp_right fun htext => ?_, fun text hwaiting => ?_, ?_⟩
  · obtain ⟨text, hsynced⟩ := Option.ne_none_iff_exists'.mp (hsome (.inl hcompared))
    rw [hsynced, htext text hsynced]
  · rcases s.reread_cases text with ⟨hsynced, heq⟩ | ⟨-, -, hsource⟩
    · rw [heq] at hwaiting ⊢
      exact (hcurrent.resolve_left (by simp [hwaiting]) _ hsynced).symm
    · exact hsource
  · intro bytes e hbytes
    rw [rereadBytes, hbytes]

/-- Edits that waited are pushed, others and then bytes that are no text change nothing, and the text
that the document was last written as is not read anew. -/
theorem callAll_remembers_source_buffer :
    let b := Buffer.ofText "input a\r\n  sprite".toList
    let change : Document → Checked Document :=
      fun d => Prod.fst <$> d.writeProperty 1 "trim".toList [[]]
    let cs : List (Call Buffer) :=
      [.reread b.text, .editLater 5 change, .commitDue 100 b, .commitDue 300 b, .edit b pure,
        .editLater 400 pure, .commit b, .rereadBytes [0x61, 0xff]]
    let written := "input a\n  trim \"\"\n  sprite".toList
    Host.Accepting Buffer ∧ ∃ s : Session, (empty {}).callAll cs = .ok (s, true) ∧
      s.isWaiting = false ∧ s.synced = some s.document.source ∧ (s.reread written).2 = false ∧
      (s.reread written).1.document.source = written ∧ s.rereadBytes [0x80] = (s, false) := by
  intro b change cs written
  obtain ⟨s, hrun, hwaiting, hskipped, hstill⟩ : ∃ s : Session,
      (empty {}).callAll cs = .ok (s, true) ∧ s.isWaiting = false ∧
        (s.reread written).2 = false ∧ (s.reread written).1.isWaiting = false := by
    have hlast : ((empty {}).callAll cs).map (fun r =>
        (r.2, r.1.isWaiting, (r.1.reread written).2, (r.1.reread written).1.isWaiting)) =
        .ok (true, false, false, false) := by
      decide
    cases hrun : (empty {}).callAll cs with
    | error e =>
      rw [hrun] at hlast
      cases hlast
    | ok r =>
      rw [hrun] at hlast
      obtain ⟨hcompared, hlast⟩ := Prod.mk.inj (Except.ok.inj hlast)
      obtain ⟨hwaiting, hlast⟩ := Prod.mk.inj hlast
      obtain ⟨hskipped, hstill⟩ := Prod.mk.inj hlast
      exact ⟨r.1, by rw [← hcompared], hwaiting, hskipped, hstill⟩
  obtain ⟨hsynced, hsource, hbytes⟩ := callAll_remembers_source Buffer.accepting hrun
  exact ⟨Buffer.accepting, s, hrun, hwaiting, (hsynced rfl).resolve_left (by simp [hwaiting]),
    hskipped, hsource written hstill, hbytes [0x80] _ rfl⟩

/-- A commit that was due and is refused changes neither the host nor the document, but the edits
wait no longer: no later commit of this kind pushes them to any host, while a commit that is asked
for does. -/
theorem commitDue_refused {host : β} {now : Nat} (hdue : s.debounce.isDue now = true) {p : Patch}
    (hpatch : Patch.computeWith (Host.text host) (Host.lineBreak host) s.document.source =
      .ok (some p))
    {e : OutOfRange} (hrefused : Host.applyPatch host p = .error e) :
    ∃ s', s.commitDue now host = .ok ⟨s', host, .error e⟩ ∧ s.isWaiting = true ∧
      s'.isWaiting = false ∧ s'.document = s.document ∧ s'.synced = s.synced ∧
      (∀ (γ : Type) [Host γ] (later : Nat) (other : γ),
        s'.commitDue later other = .ok ⟨s', other, .ok none⟩) ∧
      ∀ b : Buffer, ∃ s'' b' patch, s'.commit b = .ok ⟨s'', b', .ok patch⟩ ∧
        b'.text = b.lineBreak.restore s.document.source := by
  have hwaiting : s.isWaiting = true := by
    rw [isWaiting, Debounce.isWaiting, Option.isSome_iff_exists]
    obtain ⟨since, hsince, -⟩ := (Option.any_eq_true _ _).mp hdue
    exact ⟨since, hsince⟩
  refine ⟨{ s with debounce := s.debounce.clear }, ?_, hwaiting, rfl, rfl, rfl,
    fun γ _ later other => rfl, fun b => ?_⟩
  · rw [commitDue_of_isDue hdue, commit]
    simp only [hpatch, Checked.ok_bind, hrefused]
    rfl
  · obtain ⟨b', patch, hcommit, htext⟩ := exists_commit { s with debounce := s.debounce.clear } b
    exact ⟨_, b', patch, hcommit, htext⟩

/-- An edit that is due while the host is locked. -/
theorem commitDue_refused_locked :
    let host : PlainHost := { text := "input a\n  sprite".toList, isLocked := true }
    let change : Document → Checked (Document × Bool) :=
      fun d => d.writeProperty 2 "id".toList ["b c".toList]
    ∃ s answer, (ofHost host {}).editLater 0 change = .ok (s, answer) ∧
      s.debounce.isDue 250 = true ∧
      ∃ s', s.commitDue 250 host = .ok ⟨s', host, .error ⟨0, 0, 0⟩⟩ ∧ s'.isWaiting = false ∧
        s'.commitDue 500 { host with isLocked := false } =
          .ok ⟨s', { host with isLocked := false }, .ok none⟩ ∧
        ∀ b : Buffer, ∃ s'' b' patch, s'.commit b = .ok ⟨s'', b', .ok patch⟩ ∧
          b'.text = b.lineBreak.restore "input a\n  sprite\n    id \"b c\"".toList := by
  intro host change
  let s : Session :=
    { ofHost host {} with
      document := { Document.parse "input a\n  sprite\n    id \"b c\"".toList {} with
        registry := (ofHost host {}).document.registry }
      debounce := { delay := 250, since := some 0 } }
  have hpatch : Patch.computeWith (Host.text host) (Host.lineBreak host) s.document.source =
      .ok (some ⟨⟨1, 8⟩, ⟨1, 8⟩, "\n    id \"b c\"".toList⟩) := by
    decide
  have hdue : s.debounce.isDue 250 = true := rfl
  obtain ⟨s', hcommit, -, hwaiting, -, -, hlater, hpush⟩ := commitDue_refused hdue hpatch rfl
  exact ⟨s, true, by decide, hdue, s', hcommit, hwaiting, hlater PlainHost 500 _, hpush⟩

/-- The edit is not pushed by a later commit that is due, when the host would take it. -/
theorem commitDue_loses_edit :
    let text := "input a\n  sprite".toList
    let change : Document → Checked (Document × Bool) :=
      fun d => d.writeProperty 2 "id".toList ["b c".toList]
    ∃ s answer s' s'',
      (ofHost (PlainHost.mk text true) {}).editLater 0 change = .ok (s, answer) ∧
      s.commitDue 250 (PlainHost.mk text true) =
        .ok ⟨s', PlainHost.mk text true, .error ⟨0, 0, 0⟩⟩ ∧
      s'.isWaiting = false ∧
      s'.commitDue 500 (PlainHost.mk text false) =
        .ok ⟨s'', PlainHost.mk text false, .ok none⟩ ∧
      LineBreak.lf.split text ≠ LineBreak.lf.split s''.document.source :=
  ⟨_, _, _, _, rfl, rfl, rfl, rfl, by decide⟩

end Session
end SpriteConfig
