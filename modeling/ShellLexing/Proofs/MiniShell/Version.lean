import ShellLexing.Proofs.MiniShell.Contracts

/-!
# Versions of the shell in the miniature shell

The version of the shell language is a part of the session, and the miniature shell asks for it in
one place only: where the word `;;&` may be a keyword. So a run under Bash 3 rules is the same as
one under Bash 4 rules, up to the name of this token.

**Theorem (`versions_agree`).** Let the same number of calls be made on two new tokenizers for a
script, one for each version. The calls give the same answers, failures included, except that a
word stands under Bash 3 rules for each `;;&` that is a keyword under Bash 4 rules. Positions and
events are the same, the sessions differ in the version alone, and the version never changes.

The proof looks at a session as if it were for Bash 3 (`Session.inBash3`). A rule that does not ask
for the version is `Versionless`: it makes no difference whether a session is looked at in this way
before the rule or behind it. All rules but the one for words are of this kind, and that one
differs just in the name of the token (`classify_inBash3`). So a step, a call and a run may be
looked at in this way before or after.
-/

namespace ShellLexing

/-! ## Bash 3 instead of Bash 4 -/

/-- The session with the rules of Bash 3 in force. -/
def Session.inBash3 (s : Session) : Session :=
  { s with context := { s.context with version := .bash3 } }

namespace Session

@[simp] theorem modes_inBash3 (s : Session) : s.inBash3.modes = s.modes := rfl

@[simp] theorem heredocs_inBash3 (s : Session) : s.inBash3.heredocs = s.heredocs := rfl

@[simp] theorem caseBody_inBash3 (s : Session) :
    s.inBash3.context.caseBody = s.context.caseBody := rfl

@[simp] theorem isBash4_inBash3 (s : Session) : s.inBash3.context.isBash4 = false := rfl

end Session

/-- The tokenizer with the rules of Bash 3 in force. -/
def Tokenizer.inBash3 {μ : Type} (t : Tokenizer μ) : Tokenizer μ :=
  { t with session := t.session.inBash3 }

namespace MiniShell

/-- What is read under the rules of Bash 3 in the place of a token. -/
def Token.inBash3 : Token → Token
  | .caseContinue => .word [';', ';', '&']
  | token => token

/-- The step as it goes under the rules of Bash 3. -/
def Step.inBash3 (o : Step Token) : Step Token := (o.map Token.inBash3).within Tokenizer.inBash3

/-! ## Rules that do not ask for the version -/

def Versionless (rule : Session → Outcome Violation Session Token) : Prop :=
  ∀ s, rule s.inBash3 = ((rule s).map Token.inBash3).within Session.inBash3

variable {α : Type}

theorem versionless_done {token : Token} (h : token.inBash3 = token) :
    Versionless fun s => .done token s [] := by
  intro s
  rw [Outcome.map, Outcome.answer_done, Except.map, h]
  rfl

theorem versionless_onModes {token : Token} (h : token.inBash3 = token)
    (call : ModeStack → Outcome Violation ModeStack α) :
    Versionless fun s => (s.onModes call).map fun _ => token := by
  intro s
  have hcall : s.inBash3.onModes call = (s.onModes call).within Session.inBash3 := rfl
  simp only [hcall]
  obtain ⟨answer, s', ev⟩ := s.onModes call
  cases answer with
  | error e => rfl
  | ok a => exact congrArg (fun token => Outcome.done token s'.inBash3 ev) h.symm

theorem versionless_andThen {call : Session → Outcome Violation Session α}
    (hcall : ∀ s, call s.inBash3 = (call s).within Session.inBash3)
    {rule : α → Session → Outcome Violation Session Token} (hrule : ∀ a, Versionless (rule a)) :
    Versionless fun s => (call s).andThen rule := by
  intro s
  simp only [hcall]
  obtain ⟨answer, s', ev⟩ := call s
  cases answer with
  | error e => rfl
  | ok a => exact congrArg (Outcome.after ev) (hrule a s')

/-- A versionless rule gives a step that does not depend on the version. -/
theorem Versionless.act {rule : Session → Outcome Violation Session Token} (h : Versionless rule)
    (c : Cursor) (s : Session) : act c (rule s.inBash3) = Step.inBash3 (act c (rule s)) := by
  rw [h s]
  obtain ⟨answer, s', ev⟩ := rule s
  cases answer <;> rfl

/-! ## Steps -/

variable (c : Cursor) (s : Session)

theorem readBody_inBash3 : readBody c s.inBash3 = Step.inBash3 (readBody c s) := by
  have hclose : ∀ (body line : Text), Versionless fun s =>
      (s.onHeredocs (·.pop line)).andThen fun _ s =>
        if s.heredocs.isEmpty then
          (s.onModes (·.leave)).map fun _ => .heredocBody body
        else
          .done (.heredocBody body) s [] := by
    refine fun body line => versionless_andThen (fun _ => rfl) fun _ s => ?_
    rw [Session.heredocs_inBash3]
    split
    · exact versionless_onModes rfl _ s
    · exact versionless_done rfl s
  unfold readBody
  rw [Session.heredocs_inBash3]
  rcases (Text.lines c.ahead).span fun line => !s.heredocs.closedBy line with ⟨body, _ | ⟨line, _⟩⟩
  · rfl
  · exact (hclose body.flatten line).act _ s

theorem readNewline_inBash3 : readNewline c s.inBash3 = Step.inBash3 (readNewline c s) := by
  unfold readNewline
  rw [Session.heredocs_inBash3]
  split
  · rfl
  · exact (versionless_onModes rfl _).act _ s

theorem readOperator?_inBash3 :
    readOperator? c s.inBash3 = (readOperator? c s).map Step.inBash3 := by
  have hclose : Versionless fun s => (s.onQuotes (·.leaveSubshell)).andThen fun _ s =>
      (s.onModes (·.leave)).map fun _ => .subshellEnd :=
    versionless_andThen (fun _ => rfl) fun _ => versionless_onModes rfl _
  unfold readOperator?
  split
  · rfl
  · rfl
  · rw [Session.modes_inBash3]
    split
    · exact congrArg some ((versionless_onModes rfl (·.leave)).act _ s)
    · exact congrArg some (hclose.act _ s)
  · rfl
  · rfl

theorem classify_inBash3 (text : Text) :
    classify text s.inBash3 = ((classify text s).1.inBash3, (classify text s).2.inBash3) := by
  unfold classify
  simp only [Session.isBash4_inBash3, Session.caseBody_inBash3, Bool.false_eq_true, and_false,
    if_false]
  split_ifs with hcase hesac hin hcontinue
  · rfl
  · rfl
  · rfl
  · rw [hcontinue.1]
    rfl
  · rfl

theorem readWord_inBash3 : readWord c s.inBash3 = Step.inBash3 (readWord c s) := by
  have hpush : ∀ text : Text, Versionless fun s =>
      (s.onHeredocs (·.push text false)).andThen fun _ s =>
        (s.onModes (·.leave)).map fun _ => .heredocDelimiter text :=
    fun text => versionless_andThen (fun _ => rfl) fun _ => versionless_onModes rfl _
  unfold readWord
  rw [Session.modes_inBash3]
  split
  · exact (hpush _).act _ s
  · simp only [classify_inBash3]
    rfl

/-- Looking at a step as if it were for Bash 3 goes along with marking that it gave a token. -/
theorem map_some_inBash3 (o : Step Token) :
    (Step.inBash3 o).map some =
      ((o.map some).map (Option.map Token.inBash3)).within Tokenizer.inBash3 := by
  obtain ⟨answer, t, ev⟩ := o
  cases answer <;> rfl

theorem advance_inBash3 (t : Tokenizer Cursor) :
    advance t.inBash3 =
      ((advance t).map (Option.map Token.inBash3)).within Tokenizer.inBash3 := by
  have hscan : t.inBash3.scan = t.scan := rfl
  have hsession : t.inBash3.session = t.session.inBash3 := rfl
  unfold advance
  simp only [hscan, hsession, Session.modes_inBash3, readBody_inBash3, readNewline_inBash3,
    readWord_inBash3, readOperator?_inBash3]
  split
  · exact map_some_inBash3 _
  · split
    · rfl
    · exact map_some_inBash3 _
    · rfl
    · rw [Option.getD_map Step.inBash3]
      exact map_some_inBash3 _

/-! ## Calls and runs -/

theorem next_inBash3 (t : Tokenizer Cursor) :
    Tokenizer.next scanner t.inBash3 =
      ((Tokenizer.next scanner t).map (Option.map Token.inBash3)).within Tokenizer.inBash3 := by
  have hstep : scanner.advance t.inBash3 =
      ((scanner.advance t).map (Option.map Token.inBash3)).within Tokenizer.inBash3 :=
    advance_inBash3 t
  rcases h : scanner.advance t with ⟨cause | token, t', ev⟩
  · have hfail : scanner.advance t.inBash3 = .fail cause t'.inBash3 ev := by
      rw [hstep, h]
      rfl
    rw [Tokenizer.next_of_fail h, Tokenizer.next_of_fail hfail]
    rfl
  · have hdone : scanner.advance t.inBash3 =
        .done (token.map Token.inBash3) t'.inBash3 ev := by
      rw [hstep, h]
      rfl
    rw [Tokenizer.next_of_done h, Tokenizer.next_of_done hdone]
    rfl

/-- No rule changes the version. -/
theorem Move.version {a : Except MatchFailure (Option Token)} {t : Tokenizer Cursor}
    (hmove : Move c s a t) : t.session.context.version = s.context.version := by
  cases hmove with
  | word =>
    unfold classify
    split_ifs <;> rfl
  | _ => rfl

variable (script : Text)

theorem version_run (o : Options) (n : Nat) :
    (run script o n).state.session.context.version = o.version := by
  induction n with
  | zero => rfl
  | succ n ih =>
    rw [state_run_succ, (move_advance (orderedOver_run script o n).1).version, ih]

/-- **Versions agree.** Runs of the same length on new tokenizers for the two versions give the same
answers, except that a word stands for each keyword `;;&`. They stop at the same place, report the
same events and leave sessions that differ in nothing but the version, which stays as it was. -/
theorem versions_agree (room₃ room₄ n : Nat) :
    (run script ⟨.bash3, room₃⟩ n).answers =
        (run script ⟨.bash4, room₄⟩ n).answers.map (Except.map (Option.map Token.inBash3)) ∧
      (run script ⟨.bash3, room₃⟩ n).state.scan = (run script ⟨.bash4, room₄⟩ n).state.scan ∧
      (run script ⟨.bash3, room₃⟩ n).state.session =
        (run script ⟨.bash4, room₄⟩ n).state.session.inBash3 ∧
      (run script ⟨.bash3, room₃⟩ n).events = (run script ⟨.bash4, room₄⟩ n).events ∧
      (run script ⟨.bash3, room₃⟩ n).state.session.context.version = .bash3 ∧
      (run script ⟨.bash4, room₄⟩ n).state.session.context.version = .bash4 := by
  have hstart : start script ⟨.bash3, room₃⟩ = (start script ⟨.bash4, room₄⟩).inBash3 := rfl
  have hrun : run script ⟨.bash3, room₃⟩ n =
      ⟨(run script ⟨.bash4, room₄⟩ n).answers.map (Except.map (Option.map Token.inBash3)),
        (run script ⟨.bash4, room₄⟩ n).state.inBash3, (run script ⟨.bash4, room₄⟩ n).events⟩ := by
    rw [run, hstart]
    exact runCalls_of_commutes (fun t _ => next_inBash3 t) _ _
  exact ⟨congrArg Run.answers hrun, congrArg (·.state.scan) hrun, congrArg (·.state.session) hrun,
    (congrArg Run.events hrun :), version_run script _ n, version_run script _ n⟩

/-- Bash 4 has a keyword `;;&` where Bash 3 has a word, but as a delimiter it is the same for both
versions. -/
theorem versions_agree_keyword :
    let script : Text := [';', ';', '&', ' ', '<', '<', ';', ';', '&']
    (run script ⟨.bash4, 0⟩ 3).answers =
        [.ok (some .caseContinue), .ok (some .heredocStart),
          .ok (some (.heredocDelimiter [';', ';', '&']))] ∧
      (run script ⟨.bash3, 0⟩ 3).answers =
        [.ok (some (.word [';', ';', '&'])), .ok (some .heredocStart),
          .ok (some (.heredocDelimiter [';', ';', '&']))] := by
  intro script
  have hbash4 : (run script ⟨.bash4, 0⟩ 3).answers =
      [.ok (some .caseContinue), .ok (some .heredocStart),
        .ok (some (.heredocDelimiter [';', ';', '&']))] := by
    decide +kernel
  refine ⟨hbash4, ?_⟩
  rw [(versions_agree script 0 0 3).1, hbash4]
  rfl

end MiniShell

end ShellLexing
