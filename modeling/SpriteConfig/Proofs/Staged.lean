import SpriteConfig.Proofs.Echo
/-!
# Edits that wait

Edits that are staged wait together, until the latest of them is as old as the delay. The first flush
after that pushes them all as one step of the history, and no flush pushes them again. Which flush
that is depends on the times of the latest edit and of the flush alone, on a clock that may stand
still or go back.
-/
namespace SpriteConfig
namespace Session

/-- What happens to a session whose edits wait: one more is staged, or the session pushes them if they
are due. -/
inductive Tick
  | stage (now : Nat) (change : Document → Checked Document)
  | flush (now : Nat)

def tick (s : Session) (b : Buffer) : Tick → Checked (Session × Buffer)
  | .stage now change => do
    let (s, _) ← s.editLater now fun d => (·, ()) <$> change d
    return (s, b)
  | .flush now => do
    let c ← s.commitDue now b
    return (c.session, c.host)

def tickAll (s : Session) (b : Buffer) (ts : List Tick) : Checked (Session × Buffer) :=
  ts.foldlM (fun p t => p.1.tick p.2 t) (s, b)

def Tick.staged (d : Document) : Tick → Checked Document
  | .stage _ change => change d
  | .flush _ => .ok d

/-- The document with all changes that were staged, one after the other. -/
def stagedAll (d : Document) (ts : List Tick) : Checked Document := ts.foldlM Tick.staged d

/-- Whether the latest change was staged at `since`, and all flushes after it came too early. -/
def WaitsSince (delay : Nat) (ts : List Tick) (since : Nat) : Prop :=
  ∃ earlier change later, ts = earlier ++ .stage since change :: later ∧
    ∀ t ∈ later, ∃ now, t = .flush now ∧ now - since < delay

/-- Whether a change was staged since the last flush that was due, and the latest one is as old as
the delay. -/
def Ripe (delay : Nat) (ts : List Tick) (now : Nat) : Prop :=
  ∃ since, WaitsSince delay ts since ∧ delay ≤ now - since

section Waiting

variable {delay since : Nat} {ts : List Tick}

theorem not_waitsSince_nil : ¬ WaitsSince delay [] since := by
  rintro ⟨earlier, change, later, hnil, -⟩
  exact List.append_ne_nil_of_right_ne_nil earlier (List.cons_ne_nil _ _) hnil.symm

/-- What waits after something has happened was staged just then, or has waited before and waits on
because a flush came too early. -/
theorem waitsSince_concat_iff {t : Tick} :
    WaitsSince delay (ts ++ [t]) since ↔
      (∃ change, t = .stage since change) ∨
        WaitsSince delay ts since ∧ ∃ now, t = .flush now ∧ now - since < delay := by
  constructor
  · rintro ⟨earlier, change, later, heq, hearly⟩
    rcases List.eq_nil_or_concat later with rfl | ⟨later, last, rfl⟩
    · obtain ⟨-, hlast⟩ := List.append_inj' heq rfl
      exact .inl ⟨change, List.head_eq_of_cons_eq hlast⟩
    · rw [List.concat_eq_append] at heq hearly
      obtain ⟨hlater, hlast⟩ := List.forall_mem_append.mp hearly
      rw [← List.cons_append, ← List.append_assoc] at heq
      obtain ⟨rfl, ht⟩ := List.append_inj' heq rfl
      obtain rfl : t = last := List.head_eq_of_cons_eq ht
      exact .inr ⟨⟨earlier, change, later, rfl, hlater⟩, hlast t List.mem_cons_self⟩
  · rintro (⟨change, rfl⟩ | ⟨⟨earlier, change, later, rfl, hlater⟩, hlast⟩)
    · exact ⟨ts, change, [], rfl, nofun⟩
    · refine ⟨earlier, change, later ++ [t], ?_, ?_⟩
      · rw [List.append_assoc, List.cons_append]
      · exact List.forall_mem_append.mpr ⟨hlater, List.forall_mem_singleton.mpr hlast⟩

end Waiting

variable {s : Session} {b : Buffer} {d : Document} {now : Nat} {ts : List Tick}

theorem isDue_iff : s.debounce.isDue now = true ↔
    ∃ since, s.debounce.since = some since ∧ s.debounce.delay ≤ now - since := by
  rw [Debounce.isDue, Option.any_eq_true]
  simp only [decide_eq_true_eq]

theorem delay_takeIfDue (w : Debounce) (now : Nat) : (w.takeIfDue now).1.delay = w.delay := by
  rw [Debounce.takeIfDue]
  split <;> rfl

theorem since_takeIfDue (w : Debounce) (now since : Nat) :
    (w.takeIfDue now).1.since = some since ↔ w.since = some since ∧ now - since < w.delay := by
  obtain ⟨delay, latest⟩ := w
  rw [Debounce.takeIfDue, Debounce.isDue]
  cases latest with
  | none => simp
  | some latest =>
    by_cases hold : delay ≤ now - latest
    · rw [if_pos (by simpa using hold)]
      simp only [Debounce.clear, Option.some.injEq, reduceCtorEq, false_iff, not_and, Nat.not_lt]
      rintro rfl
      exact hold
    · rw [if_neg (by simpa using hold)]
      simp only [Option.some.injEq, iff_self_and]
      rintro rfl
      exact Nat.lt_of_not_le hold

theorem exists_commitDue_of_isDue (hdue : s.debounce.isDue now = true) (b : Buffer) :
    ∃ s' b' patch, s.commitDue now b = .ok ⟨s', b', .ok patch⟩ ∧ s'.document = s.document ∧
      s'.debounce = s.debounce.clear ∧ b'.lineBreak = b.lineBreak ∧
      b'.text = b.lineBreak.restore s.document.source ∧
      (b'.past = b.past ∨ ∃ step, b'.past = (step :: b.past).take Buffer.maxUndo) := by
  obtain ⟨b', patch, hcommit, htext⟩ := exists_commit { s with debounce := s.debounce.clear } b
  refine ⟨_, b', patch, (commitDue_of_isDue hdue b).trans hcommit, rfl, rfl, ?_⟩
  rcases host_of_commit hcommit rfl with hhost | ⟨p, happly⟩
  · obtain rfl : b' = b := hhost
    exact ⟨rfl, htext, .inl rfl⟩
  · obtain ⟨hbreak, hpast⟩ := Buffer.past_of_applyPatch happly
    exact ⟨hbreak, htext, .inr hpast⟩

theorem exists_commitDue (s : Session) (now : Nat) (b : Buffer) :
    ∃ s' b' patch, s.commitDue now b = .ok ⟨s', b', .ok patch⟩ ∧ s'.document = s.document ∧
      s'.debounce = (s.debounce.takeIfDue now).1 ∧ b'.lineBreak = b.lineBreak := by
  rw [Debounce.takeIfDue]
  by_cases hdue : s.debounce.isDue now = true
  · obtain ⟨s', b', patch, hcommit, hdocument, hdebounce, hbreak, -⟩ :=
      exists_commitDue_of_isDue hdue b
    exact ⟨s', b', patch, hcommit, hdocument, by rw [if_pos hdue, hdebounce], hbreak⟩
  · exact ⟨s, b, none, commitDue_of_not_isDue hdue b, rfl, by rw [if_neg hdue], rfl⟩

theorem tickAll_concat {s₁ : Session} {b₁ : Buffer} (hrun : s.tickAll b ts = .ok (s₁, b₁))
    (t : Tick) : s.tickAll b (ts ++ [t]) = s₁.tick b₁ t := by
  rw [tickAll] at hrun ⊢
  rw [List.foldlM_append, hrun, Checked.ok_bind, List.foldlM_cons]
  exact bind_pure _

theorem exists_of_stagedAll_concat {d₀ : Document} {t : Tick}
    (hd : stagedAll d₀ (ts ++ [t]) = .ok d) :
    ∃ d₁, stagedAll d₀ ts = .ok d₁ ∧ t.staged d₁ = .ok d := by
  rw [stagedAll, List.foldlM_append] at hd
  obtain ⟨d₁, hd₁, hlast⟩ := Checked.bind_eq_ok.mp hd
  rw [List.foldlM_cons] at hlast
  exact ⟨d₁, hd₁, (bind_pure _).symm.trans hlast⟩

/-- What is staged and flushed succeeds, the document has all changes, and the latest of them waits
as long as the flushes come too early. -/
theorem exists_tickAll (hs : s.debounce.since = none) (b : Buffer)
    (hd : stagedAll s.document ts = .ok d) :
    ∃ s' b', s.tickAll b ts = .ok (s', b') ∧ s'.document = d ∧ b'.lineBreak = b.lineBreak ∧
      s'.debounce.delay = s.debounce.delay ∧
      ∀ since, s'.debounce.since = some since ↔ WaitsSince s.debounce.delay ts since := by
  induction ts using List.reverseRecOn generalizing d with
  | nil =>
    refine ⟨s, b, rfl, Except.ok.inj hd, rfl, rfl, fun since => ?_⟩
    exact iff_of_false (by simp [hs]) not_waitsSince_nil
  | append_singleton ts t ih =>
    obtain ⟨d₁, hd₁, hlast⟩ := exists_of_stagedAll_concat hd
    obtain ⟨s₁, b₁, hrun, rfl, hbreak, hdelay, hsince⟩ := ih hd₁
    rw [tickAll_concat hrun]
    simp only [waitsSince_concat_iff, ← hsince]
    cases t with
    | stage now change =>
      have hchange : change s₁.document = .ok d := hlast
      refine ⟨{ s₁ with document := d, debounce := s₁.debounce.noteEdit now }, b₁, ?_, rfl, hbreak,
        hdelay, fun since => ?_⟩
      · rw [tick, editLater, hchange]
        rfl
      · simp [Debounce.noteEdit]
    | flush now =>
      obtain rfl : s₁.document = d := Except.ok.inj hlast
      obtain ⟨s', b', patch, hcommit, hdocument, hdebounce, hbreak'⟩ := s₁.exists_commitDue now b₁
      refine ⟨s', b', ?_, hdocument, hbreak'.trans hbreak, ?_, fun since => ?_⟩
      · rw [tick, hcommit]
        rfl
      · rw [hdebounce, delay_takeIfDue, hdelay]
      · rw [hdebounce, since_takeIfDue, hdelay]
        simp

theorem debounce_ofHost (b : Buffer) (options : Options) :
    (ofHost b options).debounce = { delay := options.commitDelay } := by
  rw [ofHost, reread, if_neg (by simp [empty])]
  rfl

/-- Edits that were staged are pushed together and once. Until the latest of them is as old as the
delay, a flush changes nothing. Then it writes the document with all of them to the buffer, as one
step of its history at most, and nothing waits any longer: the flushes after it change nothing. -/
theorem commitDue_pushes_once {b : Buffer} (hb : b.lineBreak ≠ .cr) (options : Options)
    {ts : List Tick} (hd : stagedAll (ofHost b options).document ts = .ok d) :
    ∃ s b₁, (ofHost b options).tickAll b ts = .ok (s, b₁) ∧ s.document = d ∧
      ∀ now,
        (¬ Ripe options.commitDelay ts now → s.commitDue now b₁ = .ok ⟨s, b₁, .ok none⟩) ∧
        (Ripe options.commitDelay ts now →
          ∃ s' b₂ patch, s.commitDue now b₁ = .ok ⟨s', b₂, .ok patch⟩ ∧ s'.document = d ∧
            b₂.lineBreak.split b₂.text = LineBreak.lf.split d.source ∧ s'.isWaiting = false ∧
            (b₂.past = b₁.past ∨ ∃ step, b₂.past = (step :: b₁.past).take Buffer.maxUndo) ∧
            ∀ later, s'.commitDue later b₂ = .ok ⟨s', b₂, .ok none⟩) := by
  have hfresh := debounce_ofHost b options
  obtain ⟨s, b₁, hrun, rfl, hbreak, hdelay, hsince⟩ :=
    exists_tickAll (by rw [hfresh]) b hd
  rw [hfresh] at hdelay hsince
  have hripe : ∀ now, s.debounce.isDue now = true ↔ Ripe options.commitDelay ts now := by
    intro now
    rw [isDue_iff, Ripe]
    simp only [hsince, hdelay]
  refine ⟨s, b₁, hrun, rfl, fun now => ⟨fun hearly => ?_, fun hdue => ?_⟩⟩
  · exact commitDue_of_not_isDue (mt (hripe now).mp hearly) b₁
  · obtain ⟨s', b₂, patch, hcommit, hdocument, hdebounce, hbreak', htext, hpast⟩ :=
      exists_commitDue_of_isDue ((hripe now).mpr hdue) b₁
    have hlines : b₂.lineBreak.split b₂.text = LineBreak.lf.split s.document.source := by
      rw [htext, hbreak']
      exact LineBreak.split_restore (hbreak ▸ hb) _
    have hwaiting : s'.isWaiting = false := by rw [isWaiting, hdebounce]; rfl
    refine ⟨s', b₂, patch, hcommit, hdocument, hlines, hwaiting, hpast, fun later => ?_⟩
    have hnot : ¬ s'.debounce.isDue later = true := by
      rw [hdebounce]
      exact Bool.false_ne_true
    exact commitDue_of_not_isDue hnot b₂

/-- Two edits, with a flush between them and one after them that come too early, the latter on a clock
that went back. -/
theorem commitDue_pushes_once_crlf :
    let b := Buffer.ofText "input a\r\n  sprite".toList
    let first : Document → Checked Document :=
      fun d => Prod.fst <$> d.writeProperty 1 "trim".toList ["none".toList]
    let second : Document → Checked Document := fun d => Prod.fst <$> d.writeSubject 2 [[]]
    let ts : List Tick := [.stage 0 first, .flush 200, .stage 240 second, .flush 100]
    b.lineBreak ≠ .cr ∧
      ∃ d s b₁, stagedAll (ofHost b {}).document ts = .ok d ∧
        (ofHost b {}).tickAll b ts = .ok (s, b₁) ∧
        s.commitDue 489 b₁ = .ok ⟨s, b₁, .ok none⟩ ∧
        ∃ s' b₂ patch, s.commitDue 490 b₁ = .ok ⟨s', b₂, .ok patch⟩ ∧
          b₂.lineBreak.split b₂.text = LineBreak.lf.split d.source ∧ s'.isWaiting = false ∧
          (b₂.past = b₁.past ∨ ∃ step, b₂.past = (step :: b₁.past).take Buffer.maxUndo) ∧
          s'.commitDue 1000 b₂ = .ok ⟨s', b₂, .ok none⟩ := by
  intro b first second ts
  have hb : b.lineBreak ≠ .cr := by decide
  obtain ⟨d, hd⟩ : ∃ d, stagedAll (ofHost b {}).document ts = .ok d := ⟨_, rfl⟩
  obtain ⟨s, b₁, hrun, -, hflush⟩ := commitDue_pushes_once hb {} hd
  have hwaits : ∀ since, WaitsSince 250 ts since ↔ since = 240 := by
    intro since
    have hts : ts = ([.stage 0 first, .flush 200] ++ [.stage 240 second]) ++ [.flush 100] := rfl
    rw [hts, waitsSince_concat_iff, waitsSince_concat_iff]
    constructor
    · rintro (⟨_, ⟨⟩⟩ | ⟨⟨_, ⟨⟩⟩ | ⟨-, _, ⟨⟩, -⟩, -⟩)
      rfl
    · rintro rfl
      exact .inr ⟨.inl ⟨second, rfl⟩, 100, rfl, by decide⟩
  obtain ⟨s', b₂, patch, hcommit, -, hlines, hwaiting, hpast, hlater⟩ :=
    (hflush 490).2 ⟨240, (hwaits 240).mpr rfl, by decide⟩
  have hearly : ¬ Ripe 250 ts 489 := by
    rintro ⟨since, hsince, hold⟩
    rw [(hwaits since).mp hsince] at hold
    exact absurd hold (by decide)
  exact ⟨hb, d, s, b₁, hd, hrun, (hflush 489).1 hearly, s', b₂, patch, hcommit, hlines, hwaiting,
    hpast, hlater 1000⟩

end Session
end SpriteConfig
