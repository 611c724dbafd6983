import ShellLexing.Session

/-!
# Tokenizers

A tokenizer drives a `Scanner` over a session. The scanner knows the rules: one step of it reads
one token, or finds the end of the input, or fails. It may do with the session what it likes.
The tokenizer knows what a failure means to the outside: `Tokenizer.next` makes it a fatal error
that shows the whole script, and reports it.

`Tokenizer.drain` reads all tokens up to the end of the input. A scanner may give tokens for ever,
so the number of steps has a limit; `drain` gives no outcome when the limit is too small. Any larger
limit gives the same outcome (`drain_add`), so the limit decides only whether there is one.
-/

namespace ShellLexing

/-- A scanner's own state `μ`, such as a place in a script, together with the session. -/
structure Tokenizer (μ : Type) where
  scan : μ
  session : Session

/-- The rules by which tokens `τ` are recognized. -/
structure Scanner (μ τ : Type) where
  /-- Read the next token; there is none at the end of the input. -/
  advance : Tokenizer μ → Outcome MatchFailure (Tokenizer μ) (Option τ)
  buffer : μ → Text

namespace Tokenizer

variable {μ τ : Type}

/-- The tokenizer at the beginning of a script. -/
def start (scan : μ) (o : Options) : Tokenizer μ := ⟨scan, .start o⟩

/-- Whether Bash 4 rules are in force. -/
def isBash4 (t : Tokenizer μ) : Bool := t.session.context.isBash4

def onSession {ε α : Type} (t : Tokenizer μ) (call : Session → Outcome ε Session α) :
    Outcome ε (Tokenizer μ) α :=
  (call t.session).within fun s => { t with session := s }

/-- Read the next token; there is none at the end of the input. -/
def next (scanner : Scanner μ τ) (t : Tokenizer μ) :
    Outcome FatalError (Tokenizer μ) (Option τ) :=
  let o := scanner.advance t
  match o.answer with
  | .ok token => .done token o.state o.events
  | .error cause =>
    let buffer := scanner.buffer o.state.scan
    let failed := Event.scanFailed buffer.size o.state.session.modes.active cause
    .fail (.scan buffer cause) o.state (o.events ++ [failed])

/-- Read all tokens up to the end of the input, in at most `limit` steps. -/
def drain (scanner : Scanner μ τ) (limit : Nat) (t : Tokenizer μ) :
    Option (Outcome FatalError (Tokenizer μ) (List τ)) :=
  match limit with
  | 0 => none
  | limit + 1 =>
    let o := next scanner t
    match o.answer with
    | .error e => some (.fail e o.state o.events)
    | .ok none => some (.done [] o.state o.events)
    | .ok (some token) =>
      (drain scanner limit o.state).map fun rest => (rest.map (token :: ·)).after o.events

/-- A larger limit changes nothing. -/
theorem drain_add {scanner : Scanner μ τ} {limit : Nat} {t : Tokenizer μ}
    {o : Outcome FatalError (Tokenizer μ) (List τ)} (h : drain scanner limit t = some o)
    (more : Nat) : drain scanner (limit + more) t = some o := by
  induction limit generalizing t o with
  | zero => simp [drain] at h
  | succ limit ih =>
    rw [show limit + 1 + more = (limit + more) + 1 by omega]
    simp only [drain] at h ⊢
    split at h <;> simp_all
    obtain ⟨rest, hrest, rfl⟩ := h
    exact ⟨rest, ih hrest, rfl⟩

end Tokenizer

end ShellLexing
