import ShellLexing.Proofs.Axes
import ShellLexing.Session.Operation

/-!
# The axes of a session

Operations act on ten axes of a session: the modes, the here-documents, the nesting of strings
and, in the context, the flag for here-strings, the count of open parentheses and each of the
five flags that are set freely. The version of the shell is an axis on which nothing acts. The
values on all axes make up the session (`Session.eq_of_value`).

**Theorem (`axes_independent`).** Let any operations be made on any session. The value that an
axis has in the end, and every answer to an operation of this axis, a failure included, are
those of the run of the operations of this axis alone. So two runs in which each axis has the
same operations in the same order lead to the same session by the same answers, and the version
never changes.

What is special about sessions is said of single operations (`Session.separates`). An operation
on a component leaves the others as they are by its definition. The context has several axes,
and there each operation is looked at (`Context.separates`): a refused one leaves all axes as
they are.
-/

namespace ShellLexing

/-! ## The axes of a context -/

/-- The independent parts of a context. -/
inductive ContextAxis where
  | hereString
  | parens
  | flag (f : Flag)
  | version
deriving DecidableEq

/-- The values that an axis of a context has. -/
def ContextAxis.Value : ContextAxis → Type
  | hereString => Bool
  | parens => Count
  | flag _ => Bool
  | version => ShellVersion

/-- The axis that an operation on a context concerns. -/
def ContextOperation.axis : ContextOperation → ContextAxis
  | enterHereString | leaveHereString => .hereString
  | openParen | closeParen => .parens
  | set f _ => .flag f

namespace Context

def value : (a : ContextAxis) → Context → a.Value
  | .hereString, c => c.inHereString
  | .parens, c => c.openParens
  | .flag f, c => c.get f
  | .version, c => c.version

theorem eq_of_value {c d : Context} (h : ∀ a, value a c = value a d) : c = d := by
  obtain ⟨version, inHereString, caseBody, emptyConditional, hash, word, other, parens⟩ := c
  obtain rfl : version = d.version := h .version
  obtain rfl : inHereString = d.inHereString := h .hereString
  obtain rfl : caseBody = d.caseBody := h (.flag .caseBody)
  obtain rfl : emptyConditional = d.emptyConditional := h (.flag .emptyConditional)
  obtain rfl : hash = d.expansionHash := h (.flag .expansionHash)
  obtain rfl : word = d.expansionWord := h (.flag .expansionWord)
  obtain rfl : other = d.expansionOther := h (.flag .expansionOther)
  obtain rfl : parens = d.openParens := h .parens
  rfl

/-! ## What an operation on a context changes -/

theorem state_enterHereString (c : Context) :
    c.enterHereString.state = { c with inHereString := true } := by
  unfold enterHereString
  split
  · next h => rw [← h]; rfl
  · rfl

theorem state_closeParen (c : Context) :
    c.closeParen.state = { c with openParens := c.openParens.pred?.getD c.openParens } := by
  unfold closeParen
  cases c.openParens.pred? with
  | none => rfl
  | some n => rfl

theorem answer_enterHereString (c : Context) : c.enterHereString.answer =
    if c.inHereString then .error .nestedHereString else .ok () := by
  unfold enterHereString
  split <;> rfl

theorem answer_closeParen (c : Context) : c.closeParen.answer =
    if c.openParens.pred?.isNone then .error .noOpenParenthesis else .ok () := by
  unfold closeParen
  cases c.openParens.pred? with
  | none => rfl
  | some n => rfl

theorem value_hereString_of_ne (c : Context) (b : Bool) {a : ContextAxis} (h : .hereString ≠ a) :
    value a { c with inHereString := b } = value a c := by
  cases a with
  | hereString => exact absurd rfl h
  | flag f => cases f <;> rfl
  | parens | version => rfl

theorem value_parens_of_ne (c : Context) (n : Count) {a : ContextAxis} (h : .parens ≠ a) :
    value a { c with openParens := n } = value a c := by
  cases a with
  | parens => exact absurd rfl h
  | flag f => cases f <;> rfl
  | hereString | version => rfl

theorem value_set_of_ne (c : Context) {f : Flag} (b : Bool) {a : ContextAxis} (h : .flag f ≠ a) :
    value a (c.set f b) = value a c := by
  cases a with
  | flag g =>
    have hg : g ≠ f := fun hg => h (congrArg ContextAxis.flag hg.symm)
    exact (get_set c f g b).trans (if_neg hg)
  | hereString | parens | version => cases f <;> rfl

theorem value_set_self (c : Context) (f : Flag) (b : Bool) : value (.flag f) (c.set f b) = b :=
  (get_set c f f b).trans (if_pos rfl)

/-- Each operation on a context concerns its own axis alone. -/
theorem separates : Separates ContextOperation.apply ContextOperation.axis value where
  other := by
    intro c op a h
    cases op with
    | enterHereString =>
      rw [ContextOperation.apply, Outcome.state_map, state_enterHereString]
      exact value_hereString_of_ne c true h
    | leaveHereString => exact value_hereString_of_ne c false h
    | openParen => exact value_parens_of_ne c _ h
    | closeParen =>
      rw [ContextOperation.apply, Outcome.state_map, state_closeParen]
      exact value_parens_of_ne c _ h
    | set f b => exact value_set_of_ne c b h
  answer := by
    intro c d op h
    cases op with
    | enterHereString =>
      have h : c.inHereString = d.inHereString := h
      simp only [ContextOperation.apply, Outcome.answer_map, answer_enterHereString, h]
    | closeParen =>
      have h : c.openParens = d.openParens := h
      simp only [ContextOperation.apply, Outcome.answer_map, answer_closeParen, h]
    | leaveHereString | openParen | set f b => rfl
  own := by
    intro c d op h
    cases op with
    | enterHereString =>
      simp only [ContextOperation.apply, Outcome.state_map, state_enterHereString]
      rfl
    | leaveHereString => rfl
    | openParen => exact congrArg Count.succ h
    | closeParen =>
      simp only [ContextOperation.apply, Outcome.state_map, state_closeParen]
      exact congrArg (fun n : Count => n.pred?.getD n) h
    | set f b => exact (value_set_self c f b).trans (value_set_self d f b).symm

end Context

/-! ## The axes of a session -/

/-- The independent parts of a session. -/
inductive Axis where
  | modes
  | heredocs
  | quotes
  | context (a : ContextAxis)
deriving DecidableEq

/-- The values that an axis of a session has. -/
def Axis.Value : Axis → Type
  | modes => ModeStack
  | heredocs => HeredocQueue
  | quotes => QuoteNesting
  | context a => a.Value

/-- The axis that an operation on a session concerns. -/
def Operation.axis : Operation → Axis
  | modes _ => .modes
  | context op => .context op.axis
  | heredocs _ => .heredocs
  | quotes _ => .quotes

namespace Session

def value : (a : Axis) → Session → a.Value
  | .modes, s => s.modes
  | .heredocs, s => s.heredocs
  | .quotes, s => s.quotes
  | .context a, s => s.context.value a

/-- Sessions with the same value on every axis are the same. -/
theorem eq_of_value {s t : Session} (h : ∀ a, value a s = value a t) : s = t := by
  obtain ⟨modes, context, heredocs, quotes⟩ := s
  obtain rfl : modes = t.modes := h .modes
  obtain rfl : heredocs = t.heredocs := h .heredocs
  obtain rfl : quotes = t.quotes := h .quotes
  obtain rfl : context = t.context := Context.eq_of_value fun a => h (.context a)
  rfl

/-- Each operation on a session concerns its own axis alone. -/
theorem separates : Separates Operation.apply Operation.axis value where
  other := by
    intro s op a h
    cases op with
    | modes op =>
      cases a with
      | modes => exact absurd rfl h
      | heredocs | quotes | context b => rfl
    | heredocs op =>
      cases a with
      | heredocs => exact absurd rfl h
      | modes | quotes | context b => rfl
    | quotes op =>
      cases a with
      | quotes => exact absurd rfl h
      | modes | heredocs | context b => rfl
    | context op =>
      cases a with
      | modes | heredocs | quotes => rfl
      | context b =>
        have hb : op.axis ≠ b := fun hb => h (congrArg Axis.context hb)
        exact Context.separates.other s.context op b hb
  answer := by
    intro s t op h
    cases op with
    | modes op => exact congrArg (fun m => (op.apply m).answer) h
    | heredocs op => exact congrArg (fun q => (op.apply q).answer) h
    | quotes op => exact congrArg (fun n => (op.apply n).answer) h
    | context op => exact Context.separates.answer s.context t.context op h
  own := by
    intro s t op h
    cases op with
    | modes op => exact congrArg (fun m => (op.apply m).state) h
    | heredocs op => exact congrArg (fun q => (op.apply q).state) h
    | quotes op => exact congrArg (fun n => (op.apply n).state) h
    | context op => exact Context.separates.own s.context t.context op h

/-! ## Runs -/

theorem axis_ne_version (op : Operation) : op.axis ≠ .context .version := by
  rcases op with op | op | op | op
  · exact nofun
  · cases op <;> exact nofun
  · exact nofun
  · exact nofun

/-- **The axes are independent.** In every run from every session, the value on an axis and the
answers to its operations are those of the run of these operations alone. Runs in which each axis
has the same operations in the same order lead to the same session, and on each axis the same
operations get the same answers. The version stays that of the start, which in a new session is that
of the options. -/
theorem axes_independent (s : Session) (ops : List Operation) :
    (∀ a,
      value a (runCalls Operation.apply s ops).state =
        value a (runCalls Operation.apply s (ops.filter fun op => op.axis = a)).state ∧
      ((history Operation.apply s ops).filter fun entry => entry.1.axis = a) =
        history Operation.apply s (ops.filter fun op => op.axis = a)) ∧
    (∀ ops',
      (∀ a, (ops.filter fun op => op.axis = a) = ops'.filter fun op => op.axis = a) →
      (runCalls Operation.apply s ops).state = (runCalls Operation.apply s ops').state ∧
      ∀ a, ((history Operation.apply s ops).filter fun entry => entry.1.axis = a) =
        (history Operation.apply s ops').filter fun entry => entry.1.axis = a) ∧
    (runCalls Operation.apply s ops).state.context.version = s.context.version ∧
    ∀ o, s = start o → (runCalls Operation.apply s ops).state.context.version = o.version := by
  have hversion : (runCalls Operation.apply s ops).state.context.version = s.context.version :=
    separates.run_of_idle axis_ne_version s ops
  refine ⟨fun a => separates.run rfl ops, fun ops' hops => ⟨?_, fun a => ?_⟩, hversion, ?_⟩
  · exact eq_of_value fun a => (separates.run_of_same_axes s hops a).1
  · exact (separates.run_of_same_axes s hops a).2
  · intro o ho
    rw [hversion, ho]
    rfl

/-- A session in which operations on five axes are made in two orders. Some of them fail. -/
theorem axes_independent_two_orders :
    let ops : List Operation := [.modes (.enter ⟨1⟩), .quotes .leaveString,
      .context .enterHereString, .context (.set .caseBody true), .context .closeParen,
      .context .enterHereString, .context (.set .expansionHash true), .context .openParen]
    let ops' : List Operation := [.context .closeParen, .context (.set .expansionHash true),
      .context .openParen, .context .enterHereString, .context .enterHereString,
      .context (.set .caseBody true), .quotes .leaveString, .modes (.enter ⟨1⟩)]
    (∀ a, (ops.filter fun op => op.axis = a) = ops'.filter fun op => op.axis = a) ∧
      (runCalls Operation.apply (start {}) ops).state =
        (runCalls Operation.apply (start {}) ops').state ∧
      ((history Operation.apply (start {}) ops').filter
          fun entry => entry.1.axis = .context .hereString) =
        [(.context .enterHereString, .ok .done),
          (.context .enterHereString, .error .nestedHereString)] ∧
      (runCalls Operation.apply (start {}) ops).state.context.version = .bash3 := by
  intro ops ops'
  have hops : ∀ a, (ops.filter fun op => op.axis = a) = ops'.filter fun op => op.axis = a := by
    intro a
    rcases a with _ | _ | _ | (_ | _ | f | _)
    case context.flag => cases f <;> rfl
    all_goals rfl
  obtain ⟨-, hrun, -, hversion⟩ := axes_independent (start {}) ops
  obtain ⟨hstate, hhistory⟩ := hrun ops' hops
  exact ⟨hops, hstate, (hhistory _).symm, hversion {} rfl⟩

end Session

end ShellLexing
