import ShellLexing.Proofs.Run
import ShellLexing.Tokenizer
import ShellLexing.Tokenizer.CueSheet

/-!
# Reading all tokens is reading them one by one

`Tokenizer.calls` makes a number of calls of `next` on whatever the call before has left, failures
included. This file compares `drain`, which stops by itself, with such runs, for every scanner.

**Theorem (`drain_iff_calls`).** `drain` ends with the tokens `ts` exactly where the calls give
`ts`, one token each, and then the end of the input. It ends with a failure exactly where the calls
give some tokens and then this failure. In both cases the state and the events are those of the run
of calls, so `drain` neither looks further than the call that ends it nor reports anything itself.

What a single call adds to the step of the scanner is said there as well: nothing at all to a step
with an answer, and one event to a step that fails.

Both directions are inductions on the tokens. A run is taken apart at its first call there
(`calls_succ`), since `drain` goes on from the state behind it.
-/

namespace ShellLexing

/-- The token that a call has given, if it has given one. -/
def Run.token? {ε τ : Type} : Except ε (Option τ) → Option τ
  | .ok token => token
  | .error _ => none

theorem Run.eq_of_token? {ε τ : Type} {a : Except ε (Option τ)} {token : τ}
    (h : Run.token? a = some token) : a = .ok (some token) := by
  cases a with
  | error e => cases h
  | ok found => exact congrArg _ h

/-- The tokens that a run of calls has given. -/
def Run.tokens {ε σ τ : Type} (r : Run ε σ (Option τ)) : List τ := r.answers.filterMap Run.token?

namespace Tokenizer

variable {μ τ : Type} {scanner : Scanner μ τ} {t : Tokenizer μ}

/-! ## Runs of calls -/

/-- `n` calls of `next`, each on the tokenizer that the one before it left. -/
def calls (scanner : Scanner μ τ) (n : Nat) (t : Tokenizer μ) :
    Run FatalError (Tokenizer μ) (Option τ) :=
  runCalls (fun t _ => next scanner t) t (List.replicate n ())

theorem calls_succ (scanner : Scanner μ τ) (n : Nat) (t : Tokenizer μ) :
    calls scanner (n + 1) t =
      ⟨(next scanner t).answer :: (calls scanner n (next scanner t).state).answers,
        (calls scanner n (next scanner t).state).state,
        (next scanner t).events ++ (calls scanner n (next scanner t).state).events⟩ := rfl

/-- One call more. -/
theorem calls_succ' (scanner : Scanner μ τ) (n : Nat) (t : Tokenizer μ) :
    calls scanner (n + 1) t =
      ⟨(calls scanner n t).answers ++ [(next scanner (calls scanner n t).state).answer],
        (next scanner (calls scanner n t).state).state,
        (calls scanner n t).events ++ (next scanner (calls scanner n t).state).events⟩ := by
  rw [calls, List.replicate_succ', runCalls_append]
  simp only [runCalls, List.append_nil]
  rfl

theorem tokens_calls_succ' (scanner : Scanner μ τ) (n : Nat) (t : Tokenizer μ) :
    (calls scanner (n + 1) t).tokens = (calls scanner n t).tokens ++
      (Run.token? (next scanner (calls scanner n t).state).answer).toList := by
  rw [calls_succ', Run.tokens, List.filterMap_append, Run.tokens]
  cases h : Run.token? (next scanner (calls scanner n t).state).answer with
  | none => rw [List.filterMap_cons_none h]; rfl
  | some token => rw [List.filterMap_cons_some h]; rfl

theorem tokens_calls_prefix {k n : Nat} (h : k ≤ n) :
    (calls scanner k t).tokens <+: (calls scanner n t).tokens := by
  induction h with
  | refl => exact List.prefix_refl _
  | step _ ih =>
    rw [tokens_calls_succ']
    exact ih.trans (List.prefix_append _ _)

/-- What one call keeps, every run keeps. -/
theorem calls_invariant {P : Tokenizer μ → Prop} (hstep : ∀ t, P t → P (next scanner t).state)
    (ht : P t) (n : Nat) : P (calls scanner n t).state := by
  induction n with
  | zero => exact ht
  | succ n ih =>
    rw [calls_succ']
    exact hstep _ ih

theorem exists_of_mem_answers {n : Nat} {a : Except FatalError (Option τ)}
    (h : a ∈ (calls scanner n t).answers) :
    ∃ k < n, (next scanner (calls scanner k t).state).answer = a := by
  induction n with
  | zero => cases h
  | succ n ih =>
    rw [calls_succ'] at h
    rcases List.mem_append.1 h with hfirst | hlast
    · obtain ⟨k, hk, ha⟩ := ih hfirst
      exact ⟨k, Nat.lt_succ_of_lt hk, ha⟩
    · exact ⟨n, Nat.lt_succ_self n, (List.mem_singleton.1 hlast).symm⟩

/-! ## One call -/

theorem next_of_done {token : Option τ} {t' : Tokenizer μ} {ev : List Event}
    (h : scanner.advance t = .done token t' ev) : next scanner t = .done token t' ev := by
  rw [next, h]
  rfl

theorem next_of_fail {cause : MatchFailure} {t' : Tokenizer μ} {ev : List Event}
    (h : scanner.advance t = .fail cause t' ev) :
    next scanner t = .fail (.scan (scanner.buffer t'.scan) cause) t'
      (ev ++ [.scanFailed (scanner.buffer t'.scan).size t'.session.modes.active cause]) := by
  rw [next, h]
  rfl

theorem state_next (scanner : Scanner μ τ) (t : Tokenizer μ) :
    (next scanner t).state = (scanner.advance t).state := by
  rcases h : scanner.advance t with ⟨cause | token, t', ev⟩
  · rw [next_of_fail h]
    rfl
  · rw [next_of_done h]
    rfl

theorem answer_next (scanner : Scanner μ τ) (t : Tokenizer μ) :
    (next scanner t).answer = (scanner.advance t).answer.mapError
      (.scan (scanner.buffer (scanner.advance t).state.scan)) := by
  rcases h : scanner.advance t with ⟨cause | token, t', ev⟩
  · rw [next_of_fail h]
    rfl
  · rw [next_of_done h]
    rfl

theorem answer_advance_of_next {found : Option τ} (h : (next scanner t).answer = .ok found) :
    (scanner.advance t).answer = .ok found := by
  rw [answer_next] at h
  cases hstep : (scanner.advance t).answer with
  | error cause =>
    rw [hstep] at h
    cases h
  | ok token =>
    rw [hstep] at h
    exact congrArg _ (Except.ok.inj h)

/-- A call gives the token that the step of the scanner gives. -/
theorem token?_next (scanner : Scanner μ τ) (t : Tokenizer μ) :
    Run.token? (next scanner t).answer = Run.token? (scanner.advance t).answer := by
  rw [answer_next]
  cases (scanner.advance t).answer <;> rfl

/-! ## The end of a run -/

/-- The run of calls that reads `tokens` and ends there: at the end of the input, or with a
failure. -/
def ending (tokens : List τ) (last : Except FatalError Unit) (t' : Tokenizer μ)
    (ev : List Event) : Run FatalError (Tokenizer μ) (Option τ) :=
  ⟨tokens.map (fun token => .ok (some token)) ++ [last.map fun _ => none], t', ev⟩

theorem calls_eq_ending_nil_iff {last : Except FatalError Unit} {t' : Tokenizer μ}
    {ev : List Event} :
    calls scanner 1 t = ending [] last t' ev ↔
      next scanner t = ⟨last.map fun _ => none, t', ev⟩ := by
  rw [calls_succ]
  obtain ⟨answer, t₁, ev₁⟩ := next scanner t
  simp only [calls, List.replicate_zero, runCalls, List.append_nil, ending, List.map_nil,
    List.nil_append, Run.mk.injEq, Outcome.mk.injEq, List.cons.injEq, and_true]

theorem calls_eq_ending_cons_iff {n : Nat} {token : τ} {tokens : List τ}
    {last : Except FatalError Unit} {t' : Tokenizer μ} {ev : List Event} :
    calls scanner (n + 1) t = ending (token :: tokens) last t' ev ↔
      ∃ t₁ ev₁ ev₂, next scanner t = .done (some token) t₁ ev₁ ∧
        calls scanner n t₁ = ending tokens last t' ev₂ ∧ ev = ev₁ ++ ev₂ := by
  rw [calls_succ]
  simp only [ending, List.map_cons, List.cons_append, Run.mk.injEq, List.cons.injEq]
  constructor
  · rintro ⟨⟨hanswer, hanswers⟩, hstate, hevents⟩
    refine ⟨(next scanner t).state, (next scanner t).events,
      (calls scanner n (next scanner t).state).events, ?_, ?_, hevents.symm⟩
    · rw [Outcome.done, ← hanswer]
    · rw [← hanswers, ← hstate]
  · rintro ⟨t₁, ev₁, ev₂, hnext, hcalls, rfl⟩
    rw [hnext]
    simp only [Outcome.answer_done, Outcome.state_done, Outcome.events_done, hcalls, and_self]

/-! ## Reading all tokens -/

theorem drain_of_ending (last : Except FatalError Unit) {t' : Tokenizer μ} {ev : List Event}
    (h : next scanner t = ⟨last.map fun _ => none, t', ev⟩) (limit : Nat) :
    drain scanner (limit + 1) t = some ⟨last.map fun _ => [], t', ev⟩ := by
  rw [drain, h]
  cases last <;> rfl

theorem drain_of_token {token : τ} {t₁ : Tokenizer μ} {ev : List Event}
    (h : next scanner t = .done (some token) t₁ ev) (limit : Nat) :
    drain scanner (limit + 1) t =
      (drain scanner limit t₁).map fun rest => (rest.map (token :: ·)).after ev := by
  rw [drain, h]
  rfl

theorem drain_of_calls {tokens : List τ} (last : Except FatalError Unit) {t' : Tokenizer μ}
    {ev : List Event} (h : calls scanner (tokens.length + 1) t = ending tokens last t' ev) :
    drain scanner (tokens.length + 1) t = some ⟨last.map fun _ => tokens, t', ev⟩ := by
  induction tokens generalizing t ev with
  | nil => exact drain_of_ending last (calls_eq_ending_nil_iff.1 h) 0
  | cons token tokens ih =>
    obtain ⟨t₁, ev₁, ev₂, hnext, hcalls, rfl⟩ := calls_eq_ending_cons_iff.1 h
    rw [List.length_cons, drain_of_token hnext, ih hcalls]
    cases last <;> rfl

theorem calls_of_drain {limit : Nat} {o : Outcome FatalError (Tokenizer μ) (List τ)}
    (h : drain scanner limit t = some o) :
    ∃ tokens last, o.answer = last.map (fun _ => tokens) ∧
      calls scanner (tokens.length + 1) t = ending tokens last o.state o.events := by
  induction limit generalizing t o with
  | zero => cases h
  | succ limit ih =>
    rcases hnext : next scanner t with ⟨e | _ | token, t₁, ev⟩
    · rw [drain_of_ending (.error e) hnext] at h
      obtain rfl := Option.some.inj h
      exact ⟨[], .error e, rfl, calls_eq_ending_nil_iff.2 hnext⟩
    · rw [drain_of_ending (.ok ()) hnext] at h
      obtain rfl := Option.some.inj h
      exact ⟨[], .ok (), rfl, calls_eq_ending_nil_iff.2 hnext⟩
    · rw [drain_of_token hnext] at h
      obtain ⟨rest, hrest, rfl⟩ := Option.map_eq_some_iff.1 h
      obtain ⟨tokens, last, hanswer, hcalls⟩ := ih hrest
      refine ⟨token :: tokens, last, ?_, calls_eq_ending_cons_iff.2 ⟨_, _, _, hnext, hcalls, rfl⟩⟩
      rw [Outcome.answer_after, Outcome.answer_map, hanswer]
      cases last <;> rfl

/-- **Reading all tokens** is reading them one by one, whatever the scanner does. It answers with
tokens where the calls give these tokens and then the end of the input, and fails where they give
some tokens and then the failure, with the state and the events of the calls. A call reports no
event of its own, unless the step of the scanner fails; then it adds one, and shows the buffer and
the cause. -/
theorem drain_iff_calls (scanner : Scanner μ τ) (t : Tokenizer μ) :
    (∀ (tokens : List τ) t' ev, (∃ limit, drain scanner limit t = some (.done tokens t' ev)) ↔
      calls scanner (tokens.length + 1) t =
        ⟨tokens.map (fun token => .ok (some token)) ++ [.ok none], t', ev⟩) ∧
    (∀ e t' ev, (∃ limit, drain scanner limit t = some (.fail e t' ev)) ↔
      ∃ tokens : List τ, calls scanner (tokens.length + 1) t =
        ⟨tokens.map (fun token => .ok (some token)) ++ [.error e], t', ev⟩) ∧
    (∀ token t' ev, scanner.advance t = .done token t' ev →
      next scanner t = .done token t' ev) ∧
    ∀ cause t' ev, scanner.advance t = .fail cause t' ev →
      next scanner t = .fail (.scan (scanner.buffer t'.scan) cause) t'
        (ev ++ [.scanFailed (scanner.buffer t'.scan).size t'.session.modes.active cause]) := by
  refine ⟨fun tokens t' ev => ⟨fun h => ?_, fun h => ?_⟩,
    fun e t' ev => ⟨fun h => ?_, fun h => ?_⟩,
    fun _ _ _ h => next_of_done h, fun _ _ _ h => next_of_fail h⟩
  · obtain ⟨limit, hdrain⟩ := h
    obtain ⟨read, last, hanswer, hcalls⟩ := calls_of_drain hdrain
    cases last with
    | error e => cases hanswer
    | ok u =>
      obtain rfl := Except.ok.inj hanswer
      exact hcalls
  · exact ⟨_, drain_of_calls (.ok ()) h⟩
  · obtain ⟨limit, hdrain⟩ := h
    obtain ⟨read, last, hanswer, hcalls⟩ := calls_of_drain hdrain
    cases last with
    | ok u => cases hanswer
    | error e' =>
      obtain rfl := Except.error.inj hanswer
      exact ⟨read, hcalls⟩
  · obtain ⟨tokens, hcalls⟩ := h
    exact ⟨_, drain_of_calls (.error e) hcalls⟩

/-- A step that enters a mode and then finds no match is reported with the mode that it entered,
and ends the reading. -/
theorem drain_iff_calls_failing_cue :
    let cue : Cue := ⟨[.modes (.enter ⟨1⟩)], false, .noMatch 1⟩
    let t : Tokenizer CueSheet := .start (.ofCues ['a', 'b'] [cue]) {}
    let t' : Tokenizer CueSheet :=
      ⟨⟨['a', 'b'], [], 1⟩, ⟨⟨⟨1⟩, [.initial]⟩, .fresh .bash3, .empty, .fresh⟩⟩
    let entered : Event := .modeEntered .initial ⟨1⟩ 1
    let e : FatalError := .scan ['a', 'b'] (.noMatch 1)
    let ev : List Event := [entered, .scanFailed 2 ⟨1⟩ (.noMatch 1)]
    CueSheet.scanner.advance t = .fail (.noMatch 1) t' [entered] ∧
      next CueSheet.scanner t = .fail e t' ev ∧
      ∃ limit, drain CueSheet.scanner limit t = some (.fail e t' ev) := by
  intro cue t t' entered e ev
  exact ⟨rfl, (drain_iff_calls CueSheet.scanner t).2.2.2 (.noMatch 1) t' [entered] rfl,
    ((drain_iff_calls CueSheet.scanner t).2.1 e t' ev).2 ⟨[], rfl⟩⟩

end Tokenizer

end ShellLexing
