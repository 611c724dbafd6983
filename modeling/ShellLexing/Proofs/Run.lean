import ShellLexing.Outcome

/-!
# Runs of calls

A run makes calls on an object one after the other. A failed call does not end it: the next call
meets the state that the failure left. A `Run` keeps the answers in order, the last state and all
events, so that what a list of calls does to an object can be stated as a whole. Each of the events
belongs to one of the calls (`exists_call_of_prefix`).

A call that changes nothing and reports nothing can be left out of a run (`runCalls_of_silent`):
only its own answer is missing. `runCalls_of_commutes` carries a symmetry of the single calls over
to runs, and `runCalls_invariant` an invariant, of runs in which every call is allowed where it is
made.
-/

namespace ShellLexing

/-- What a list of calls gives: the answers and the events in order, and the last state. -/
structure Run (ε σ α : Type) where
  answers : List (Except ε α)
  state : σ
  events : List Event

variable {ε σ α ω : Type}

/-- Make calls one after the other, each on the state that the one before it left. -/
def runCalls (call : σ → ω → Outcome ε σ α) (s : σ) : List ω → Run ε σ α
  | [] => ⟨[], s, []⟩
  | op :: ops =>
    let o := call s op
    let rest := runCalls call o.state ops
    ⟨o.answer :: rest.answers, rest.state, o.events ++ rest.events⟩

variable {call : σ → ω → Outcome ε σ α}

theorem runCalls_append (s : σ) (xs ys : List ω) :
    runCalls call s (xs ++ ys) =
      ⟨(runCalls call s xs).answers ++ (runCalls call (runCalls call s xs).state ys).answers,
        (runCalls call (runCalls call s xs).state ys).state,
        (runCalls call s xs).events ++ (runCalls call (runCalls call s xs).state ys).events⟩ := by
  induction xs generalizing s with
  | nil => rfl
  | cons op xs ih =>
    simp only [List.cons_append, runCalls]
    rw [ih, List.append_assoc]

theorem state_runCalls_concat (s : σ) (ops : List ω) (op : ω) :
    (runCalls call s (ops ++ [op])).state = (call (runCalls call s ops).state op).state := by
  rw [runCalls_append]
  rfl

theorem length_answers (s : σ) (ops : List ω) :
    (runCalls call s ops).answers.length = ops.length := by
  induction ops generalizing s with
  | nil => rfl
  | cons op ops ih => exact congrArg (· + 1) (ih (call s op).state)

/-- Each event of a run is reported by one of its calls. -/
theorem exists_call_of_prefix {s : σ} {ops : List ω} {told : List Event} {e : Event}
    (h : told ++ [e] <+: (runCalls call s ops).events) :
    ∃ before op after own, ops = before ++ op :: after ∧
      told = (runCalls call s before).events ++ own ∧
      own ++ [e] <+: (call (runCalls call s before).state op).events := by
  induction ops generalizing s told with
  | nil => simp [runCalls] at h
  | cons op ops ih =>
    have hown : told ++ [e] <+: (call s op).events ∨ (call s op).events <+: told := by
      rcases List.prefix_or_prefix_of_prefix h (List.prefix_append _ _) with hown | hlater
      · exact Or.inl hown
      · rcases List.prefix_concat_iff.1 hlater with heq | hlater
        · exact Or.inl (heq ▸ List.prefix_rfl)
        · exact Or.inr hlater
    rcases hown with hown | ⟨later, rfl⟩
    · exact ⟨[], op, ops, told, rfl, rfl, hown⟩
    · rw [runCalls, List.append_assoc, List.prefix_append_right_inj] at h
      obtain ⟨before, op', after, own, rfl, rfl, hreported⟩ := ih h
      refine ⟨op :: before, op', after, own, rfl, ?_, hreported⟩
      rw [runCalls, List.append_assoc]

/-- A call that changes and reports nothing can be left out: its answer is missing, and all else is
the same. -/
theorem runCalls_of_silent {s : σ} {before after : List ω} {op : ω}
    (hstate : (call (runCalls call s before).state op).state = (runCalls call s before).state)
    (hevents : (call (runCalls call s before).state op).events = []) :
    runCalls call s (before ++ after) =
      { runCalls call s (before ++ op :: after) with
        answers := (runCalls call s (before ++ op :: after)).answers.eraseIdx before.length } := by
  rw [runCalls_append, runCalls_append]
  simp only [runCalls, hstate, hevents, List.nil_append]
  have hlen : before.length = (runCalls call s before).answers.length :=
    (length_answers s before).symm
  rw [hlen, List.eraseIdx_append_of_length_le (Nat.le_refl _), Nat.sub_self,
    List.eraseIdx_cons_zero]

/-- If looking at objects through `f` and at answers through `g` goes along with a call, it goes
along with a run of calls. -/
theorem runCalls_of_commutes {f : σ → σ} {g : α → α}
    (h : ∀ s op, call (f s) op = ((call s op).map g).within f) (s : σ) (ops : List ω) :
    runCalls call (f s) ops =
      ⟨(runCalls call s ops).answers.map (Except.map g), f (runCalls call s ops).state,
        (runCalls call s ops).events⟩ := by
  induction ops generalizing s with
  | nil => rfl
  | cons op ops ih =>
    rw [runCalls, h, Outcome.state_within, Outcome.state_map, ih]
    rfl

/-- Each operation of the run is allowed in the state that it meets. -/
def AllowedRun (call : σ → ω → Outcome ε σ α) (allowed : σ → ω → Prop) (s : σ) (ops : List ω) :
    Prop :=
  ∀ before op, before ++ [op] <+: ops → allowed (runCalls call s before).state op

variable {allowed : σ → ω → Prop}

theorem allowedRun_nil (s : σ) : AllowedRun call allowed s [] := by
  intro before op hbefore
  simp at hbefore

theorem allowedRun_cons {s : σ} {op : ω} {ops : List ω} :
    AllowedRun call allowed s (op :: ops) ↔
      allowed s op ∧ AllowedRun call allowed (call s op).state ops := by
  refine ⟨fun h => ⟨h [] op (List.prefix_append [op] ops), fun before op' hbefore => ?_⟩,
    fun ⟨hop, hops⟩ before op' hbefore => ?_⟩
  · exact h (op :: before) op' ((List.prefix_cons_inj op).2 hbefore)
  · cases before with
    | nil =>
      obtain rfl : op' = op := by simpa using hbefore
      exact hop
    | cons first before =>
      obtain ⟨rfl, htail⟩ := List.cons_prefix_cons.1 hbefore
      exact hops before op' htail

instance decidableAllowedRun [∀ s op, Decidable (allowed s op)] :
    ∀ (s : σ) (ops : List ω), Decidable (AllowedRun call allowed s ops)
  | s, [] => isTrue (allowedRun_nil s)
  | s, op :: ops =>
    have := decidableAllowedRun (call s op).state ops
    decidable_of_iff (allowed s op ∧ AllowedRun call allowed (call s op).state ops)
      allowedRun_cons.symm

theorem runCalls_invariant {P : σ → Prop}
    (hstep : ∀ s op, allowed s op → P s → P (call s op).state) {s : σ} {ops : List ω}
    (hops : AllowedRun call allowed s ops) (hs : P s) : P (runCalls call s ops).state := by
  induction ops generalizing s with
  | nil => exact hs
  | cons op ops ih =>
    obtain ⟨hop, hops⟩ := allowedRun_cons.1 hops
    exact ih hops (hstep s op hop hs)

end ShellLexing
