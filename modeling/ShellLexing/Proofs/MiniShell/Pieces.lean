import ShellLexing.Proofs.MiniShell.Contracts
import ShellLexing.Proofs.Text.Lines

/-!
# A script in pieces

The miniature shell reads a script from the left to the right and leaves nothing out. Each token
comes from a `Piece` of the script: blanks, the characters of the token, and behind the body of a
here-document the line that closes it.

**Theorem (`pieces_cover_script`).** A call that gives a token reads one piece. It begins where the
call before has stopped, and the next one begins where this one ends. At the end of the input only
blanks were left. So the pieces of all tokens, and blanks behind them, are the whole script.

**Progress.** A piece may be empty: a carriage return or a form feed ends a word, but is neither
skipped nor read. In a script without these characters every piece has a first character
(`Move.spelling_ne_nil`, `Piece.Read.text_ne_nil`). What lies ahead gets shorter with every token
then, so the number of calls is bounded by the size of the script.

The rules are looked at once, in `Move.spells` and `Move.reads_lines`: the characters of the token
lie ahead, and just these are skipped.
-/

namespace ShellLexing

/-! ## Places -/

namespace Cursor

/-- A cursor cuts its text at its position, which therefore never lies inside a character. -/
theorem splitAt?_position (c : Cursor) :
    c.text.splitAt? c.position = some (c.behind.reverse, c.ahead) := by
  rw [position, ← Text.size_reverse]
  exact Text.splitAt?_append _ _

theorem ahead_eq_of_prefix {c : Cursor} {text : Text} (h : text <+: c.ahead) :
    c.ahead = text ++ (c.skip text.length).ahead := by
  obtain ⟨rest, hrest⟩ := h
  rw [ahead_skip, ← hrest, List.drop_left]

theorem position_skip_of_prefix {c : Cursor} {text : Text} (h : text <+: c.ahead) :
    (c.skip text.length).position = c.position + text.size := by
  obtain ⟨rest, hrest⟩ := h
  rw [position_skip, ← hrest, List.take_left]

end Cursor

namespace MiniShell

/-! ## Pieces -/

/-- The characters of a token; those of a body do not include the line that closes it. -/
def Token.spelling : Token → Text
  | .word text => text
  | .inKeyword => ['i', 'n']
  | .caseContinue => [';', ';', '&']
  | .arithmeticStart => ['$', '(', '(']
  | .arithmeticEnd => [')', ')']
  | .subshellStart => ['$', '(']
  | .subshellEnd => [')']
  | .heredocStart => ['<', '<']
  | .heredocDelimiter raw => raw
  | .heredocBody text => text
  | .newline => ['\n']

/-- A token together with what is read for it. -/
structure Piece where
  /-- The blanks in front of the token. -/
  blanks : Text
  token : Token
  /-- The line that closes a body. -/
  closing : Text

namespace Piece

def text (p : Piece) : Text := p.blanks ++ p.token.spelling ++ p.closing

/-- The step from `t` to `t'` reads the piece. -/
structure Read (p : Piece) (t t' : Tokenizer Cursor) : Prop where
  ahead_eq : t.scan.ahead = p.text ++ t'.scan.ahead
  position_eq : t'.scan.position = t.scan.position + p.text.size
  space_or_tab : ∀ a ∈ p.blanks, a = ' ' ∨ a = '\t'
  /-- In a body there are no blanks: whole lines are read, and the line that closes the body. -/
  of_body : t.session.modes.active = heredocBody →
    p.blanks = [] ∧ t.session.heredocs.closedBy p.closing = true ∧
      ∃ lines rest, p.token = .heredocBody lines.flatten ∧
        Text.lines t.scan.ahead = lines ++ p.closing :: rest
  of_not_body : t.session.modes.active ≠ heredocBody →
    (∀ body, p.token ≠ .heredocBody body) ∧ p.closing = []

end Piece

/-! ## One step -/

variable {c : Cursor} {s : Session} {t t' : Tokenizer Cursor} {token : Token}

theorem spelling_classify (text : Text) (s : Session) : (classify text s).1.spelling = text := by
  unfold classify
  split_ifs with hcase hesac hin hcontinue
  · rfl
  · rfl
  · exact hin.1.symm
  · exact hcontinue.1.symm
  · rfl

theorem classify_ne_body (text body : Text) (s : Session) :
    (classify text s).1 ≠ .heredocBody body := by
  unfold classify
  split_ifs <;> exact nofun

/-- Outside of bodies a step that gives a token skips the characters of this token. -/
theorem Move.spells (hmove : Move c s (.ok (some token)) t)
    (hactive : s.modes.active ≠ heredocBody) :
    (∀ body, token ≠ .heredocBody body) ∧ token.spelling <+: c.ahead ∧
      t.scan = c.skip token.spelling.length := by
  cases hmove with
  | body hbody | lastBody hbody => exact absurd hbody hactive
  | newline _ hc | newlineToBody _ hc | arithmeticStart _ hc | subshellStart _ hc
  | arithmeticEnd _ hc | subshellEnd _ hc | heredocStart _ hc =>
    exact ⟨nofun, hc ▸ ⟨_, rfl⟩, rfl⟩
  | delimiter => exact ⟨nofun, List.takeWhile_prefix _, rfl⟩
  | word =>
    rw [spelling_classify]
    exact ⟨fun body => classify_ne_body _ body s, List.takeWhile_prefix _, rfl⟩

theorem Move.reads_lines (hmove : Move c s (.ok (some token)) t)
    (hactive : s.modes.active = heredocBody) :
    ∃ lines line rest, token = .heredocBody lines.flatten ∧
      Text.lines c.ahead = lines ++ line :: rest ∧ s.heredocs.closedBy line = true ∧
      t.scan = c.skip (lines.flatten ++ line).length := by
  cases hmove with
  | @body lines rest line _ _ _ hlines _ hclose
  | @lastBody lines rest line _ _ _ _ hlines _ hclose =>
    exact ⟨lines, line, rest, rfl, hlines, hclose, by rw [List.length_append]⟩
  | arithmeticEnd hother | delimiter hother =>
    rw [hactive] at hother
    exact absurd hother (by decide)
  | newline hother | newlineToBody hother | arithmeticStart hother | subshellStart hother
  | subshellEnd hother | heredocStart hother | word hother => exact absurd hactive hother

theorem ahead_eq_blanks_append (hactive : t.session.modes.active ≠ heredocBody) :
    t.scan.ahead = t.scan.ahead.takeWhile isBlank ++ (front t).ahead := by
  rw [front, if_neg hactive]
  exact Cursor.ahead_eq_of_prefix (List.takeWhile_prefix _)

theorem position_front (hactive : t.session.modes.active ≠ heredocBody) :
    (front t).position = t.scan.position + Text.size (t.scan.ahead.takeWhile isBlank) := by
  rw [front, if_neg hactive]
  exact Cursor.position_skip_of_prefix (List.takeWhile_prefix _)

theorem Move.exists_piece (hmove : Move (front t) t.session (.ok (some token)) t') :
    ∃ p : Piece, p.token = token ∧ p.Read t t' := by
  by_cases hactive : t.session.modes.active = heredocBody
  · obtain ⟨lines, line, rest, rfl, hlines, hclose, hscan⟩ := hmove.reads_lines hactive
    rw [front, if_pos hactive] at hlines hscan
    have hprefix : lines.flatten ++ line <+: t.scan.ahead := by
      refine ⟨rest.flatten, ?_⟩
      rw [← Text.flatten_lines t.scan.ahead, hlines, List.flatten_append, List.flatten_cons,
        List.append_assoc]
    refine ⟨⟨[], .heredocBody lines.flatten, line⟩, rfl, ?_⟩
    exact {
      ahead_eq := hscan ▸ Cursor.ahead_eq_of_prefix hprefix
      position_eq := hscan ▸ Cursor.position_skip_of_prefix hprefix
      space_or_tab := fun a ha => absurd ha List.not_mem_nil
      of_body := fun _ => ⟨rfl, hclose, lines, rest, rfl, hlines⟩
      of_not_body := fun hother => absurd hactive hother }
  · obtain ⟨hbody, hprefix, hscan⟩ := hmove.spells hactive
    refine ⟨⟨t.scan.ahead.takeWhile isBlank, token, []⟩, rfl, ?_⟩
    exact {
      ahead_eq := by
        rw [Piece.text, List.append_nil, hscan, List.append_assoc,
          ← Cursor.ahead_eq_of_prefix hprefix]
        exact ahead_eq_blanks_append hactive
      position_eq := by
        rw [Piece.text, List.append_nil, hscan, Cursor.position_skip_of_prefix hprefix,
          position_front hactive, Text.size_append, Nat.add_assoc]
      space_or_tab := fun a ha => isBlank_iff.1 (List.mem_takeWhile_imp ha)
      of_body := fun hother => absurd hother hactive
      of_not_body := fun _ => ⟨hbody, rfl⟩ }

theorem Move.blanks_of_end (hmove : Move (front t) t.session (.ok none) t') :
    t.session.modes.active ≠ heredocBody ∧ (∀ a ∈ t.scan.ahead, a = ' ' ∨ a = '\t') ∧
      t'.scan.ahead = [] := by
  generalize hc : front t = c at hmove
  cases hmove with
  | endOfInput hactive hnil =>
    have hahead := ahead_eq_blanks_append hactive
    rw [hc, hnil, List.append_nil] at hahead
    have hblank := List.takeWhile_eq_self_iff.1 hahead.symm
    exact ⟨hactive, fun a ha => isBlank_iff.1 (hblank a ha), hnil⟩

/-! ## Progress -/

theorem ne_nil_of_lines_eq {text line : Text} {before after : List Text}
    (h : Text.lines text = before ++ line :: after) : line ≠ [] := by
  obtain ⟨body, -, rfl | ⟨rfl, hbody, -⟩⟩ := Text.exists_of_lines_eq h
  · exact List.append_ne_nil_of_right_ne_nil body (List.cons_ne_nil _ _)
  · exact hbody

/-- A word has a first character, unless it stands in front of white space that is not skipped. -/
theorem word_ne_nil {a : Char} {rest : Text} (hc : c.ahead = a :: rest) (hblank : isBlank a = false)
    (hnewline : a ≠ '\n') (hreturn : a ≠ '\r') (hfeed : a ≠ '\x0c')
    (hop : readOperator? c s = none) : c.ahead.takeWhile isWordChar ≠ [] := by
  have hparen : a ≠ ')' := by
    rintro rfl
    simp only [readOperator?, hc] at hop
    split at hop <;> cases hop
  have ha : isWordChar a = true := by
    simp only [isBlank, Bool.or_eq_false_iff, decide_eq_false_iff_not] at hblank
    simp [isWordChar, isSpace, hblank, hnewline, hreturn, hfeed, hparen]
  rw [hc, List.takeWhile_cons_of_pos ha]
  exact List.cons_ne_nil a _

theorem isBlank_of_front_eq_cons (hactive : t.session.modes.active ≠ heredocBody) {a : Char}
    {rest : Text} (hfront : (front t).ahead = a :: rest) : isBlank a = false := by
  have hdrop : t.scan.ahead.dropWhile isBlank = a :: rest := by
    have hsplit : t.scan.ahead.takeWhile isBlank ++ t.scan.ahead.dropWhile isBlank =
        t.scan.ahead.takeWhile isBlank ++ (front t).ahead := by
      rw [List.takeWhile_append_dropWhile]
      exact ahead_eq_blanks_append hactive
    rw [← hfront]
    exact List.append_cancel_left hsplit
  have hhead := List.head?_dropWhile_not isBlank t.scan.ahead
  rw [hdrop] at hhead
  exact hhead

theorem Move.spelling_ne_nil (hmove : Move (front t) t.session (.ok (some token)) t')
    (hactive : t.session.modes.active ≠ heredocBody) (hreturn : '\r' ∉ t.scan.ahead)
    (hfeed : '\x0c' ∉ t.scan.ahead) : token.spelling ≠ [] := by
  have hword : (front t).ahead ≠ [] → (front t).ahead.head? ≠ some '\n' →
      readOperator? (front t) t.session = none → (front t).ahead.takeWhile isWordChar ≠ [] := by
    intro hne hnewline hop
    obtain ⟨a, rest, hc⟩ := List.exists_cons_of_ne_nil hne
    have ha : a ∈ t.scan.ahead := by
      rw [ahead_eq_blanks_append hactive, hc]
      exact List.mem_append_right _ List.mem_cons_self
    exact word_ne_nil hc (isBlank_of_front_eq_cons hactive hc)
      (fun h => hnewline (by rw [hc, h]; rfl)) (fun h => hreturn (h ▸ ha))
      (fun h => hfeed (h ▸ ha)) hop
  generalize front t = c at hmove hword
  cases hmove with
  | body hbody | lastBody hbody => exact absurd hbody hactive
  | newline | newlineToBody | arithmeticStart | subshellStart | arithmeticEnd | subshellEnd
  | heredocStart => exact List.cons_ne_nil _ _
  | delimiter _ _ hne hnewline hop => exact hword hne hnewline hop
  | word _ _ hne hnewline hop =>
    rw [spelling_classify]
    exact hword hne hnewline hop

theorem Piece.Read.text_ne_nil {p : Piece} (hread : p.Read t t')
    (hmove : Move (front t) t.session (.ok (some p.token)) t') (hreturn : '\r' ∉ t.scan.ahead)
    (hfeed : '\x0c' ∉ t.scan.ahead) : p.text ≠ [] := by
  by_cases hactive : t.session.modes.active = heredocBody
  · obtain ⟨-, -, lines, rest, -, hlines⟩ := hread.of_body hactive
    exact List.append_ne_nil_of_right_ne_nil _ (ne_nil_of_lines_eq hlines)
  · have hspelling := hmove.spelling_ne_nil hactive hreturn hfeed
    exact List.append_ne_nil_of_left_ne_nil (List.append_ne_nil_of_right_ne_nil _ hspelling) _

theorem move_of_next {found : Option Token} (h : Ordered t.session)
    (hanswer : (Tokenizer.next scanner t).answer = .ok found) :
    Move (front t) t.session (.ok found) (Tokenizer.next scanner t).state := by
  have hstep : (advance t).answer = .ok found := Tokenizer.answer_advance_of_next hanswer
  rw [Tokenizer.state_next, ← hstep]
  exact move_advance h

/-! ## Runs -/

variable (script : Text) (o : Options)

theorem answers_run_succ (n : Nat) :
    (run script o (n + 1)).answers =
      (run script o n).answers ++ [(Tokenizer.next scanner (run script o n).state).answer] := by
  rw [run, Tokenizer.calls_succ']
  rfl

theorem move_of_call {n : Nat} {found : Option Token}
    (h : (Tokenizer.next scanner (run script o n).state).answer = .ok found) :
    Move (front (run script o n).state) (run script o n).state.session (.ok found)
      (run script o (n + 1)).state := by
  have hmove := move_of_next (orderedOver_run script o n).1 h
  rw [Tokenizer.state_next] at hmove
  exact state_run_succ script o n ▸ hmove

/-- The calls of the run read these pieces one after the other. -/
def ReadInTurn (pieces : List Piece) : Prop :=
  ∀ (k : Nat) (p : Piece), pieces[k]? = some p →
    p.Read (run script o k).state (run script o (k + 1)).state

/-- As long as every call gives a token, the pieces of these tokens are what has been read. -/
theorem exists_pieces (n : Nat) (tokens : List Token)
    (h : (run script o n).answers = tokens.map fun token => .ok (some token)) :
    ∃ pieces : List Piece, pieces.map (·.token) = tokens ∧
      script = pieces.flatMap Piece.text ++ (run script o n).state.scan.ahead ∧
      ReadInTurn script o pieces := by
  induction n generalizing tokens with
  | zero =>
    obtain rfl : tokens = [] := List.map_eq_nil_iff.1 h.symm
    exact ⟨[], rfl, rfl, nofun⟩
  | succ n ih =>
    rw [answers_run_succ] at h
    obtain ⟨tokens, last, rfl, hanswers, hlast⟩ := List.map_eq_append_iff.1 h.symm
    obtain ⟨token, rfl, hanswer⟩ := List.map_eq_singleton_iff.1 hlast
    obtain ⟨pieces, rfl, hscript, hreads⟩ := ih tokens hanswers.symm
    obtain ⟨p, rfl, hread⟩ := (move_of_call script o hanswer.symm).exists_piece
    have hlen : pieces.length = n := by
      have hcount := congrArg List.length hanswers
      rw [List.length_map, List.length_map] at hcount
      rw [hcount]
      exact (length_answers _ _).trans List.length_replicate
    refine ⟨pieces ++ [p], by rw [List.map_append]; rfl, ?_, fun k q hq => ?_⟩
    · rw [List.flatMap_append, List.flatMap_singleton, List.append_assoc, ← hread.ahead_eq]
      exact hscript
    · by_cases hk : k < pieces.length
      · rw [List.getElem?_append_left hk] at hq
        exact hreads k q hq
      · have hk' := (List.getElem?_eq_some_iff.1 hq).1
        rw [List.length_append, List.length_singleton] at hk'
        obtain rfl : k = pieces.length := by omega
        rw [List.getElem?_concat_length] at hq
        obtain rfl := Option.some.inj hq
        exact hlen ▸ hread

theorem exists_pieces_of_drain {tokens : List Token} {ev : List Event} {limit : Nat}
    (h : Tokenizer.drain scanner limit (start script o) = some (.done tokens t' ev)) :
    ∃ (pieces : List Piece) (rest : Text), pieces.map (·.token) = tokens ∧
      script = pieces.flatMap Piece.text ++ rest ∧ (∀ a ∈ rest, a = ' ' ∨ a = '\t') ∧
      ReadInTurn script o pieces := by
  obtain ⟨read, last, hanswer, hcalls⟩ := Tokenizer.calls_of_drain h
  cases last with
  | error e => cases hanswer
  | ok u =>
    obtain rfl := Except.ok.inj hanswer
    have hanswers : (run script o (tokens.length + 1)).answers =
        tokens.map (fun token => .ok (some token)) ++ [.ok none] := by
      rw [run, hcalls]
      rfl
    rw [answers_run_succ] at hanswers
    obtain ⟨htokens, hend⟩ := List.append_inj' hanswers rfl
    obtain ⟨pieces, hpieces, hscript, hreads⟩ := exists_pieces script o _ tokens htokens
    have hlast := move_of_call script o (List.singleton_inj.1 hend)
    exact ⟨pieces, _, hpieces, hscript, hlast.blanks_of_end.2.1, hreads⟩

/-- Without carriage returns and form feeds there are fewer tokens than there are steps, if there
are fewer bytes ahead. -/
theorem exists_drain {limit : Nat} (hordered : Ordered t.session) (hreturn : '\r' ∉ t.scan.ahead)
    (hfeed : '\x0c' ∉ t.scan.ahead) (hlimit : Text.size t.scan.ahead < limit) :
    ∃ outcome, Tokenizer.drain scanner limit t = some outcome := by
  induction limit generalizing t with
  | zero => exact absurd hlimit (Nat.not_lt_zero _)
  | succ limit ih =>
    rcases hnext : Tokenizer.next scanner t with ⟨e | _ | token, t₁, ev⟩
    · exact ⟨_, Tokenizer.drain_of_ending (.error e) hnext limit⟩
    · exact ⟨_, Tokenizer.drain_of_ending (.ok ()) hnext limit⟩
    · have hmove : Move (front t) t.session (.ok (some token)) t₁ := by
        have hcall := move_of_next hordered (congrArg Outcome.answer hnext)
        rw [hnext] at hcall
        exact hcall
      obtain ⟨p, rfl, hread⟩ := hmove.exists_piece
      have hsize := congrArg Text.size hread.ahead_eq
      have hpos := Text.size_pos (hread.text_ne_nil hmove hreturn hfeed)
      rw [Text.size_append] at hsize
      have hmem : ∀ a ∈ t₁.scan.ahead, a ∈ t.scan.ahead := fun a ha =>
        hread.ahead_eq ▸ List.mem_append_right p.text ha
      obtain ⟨outcome, hdrain⟩ := ih (t := t₁) (hmove.ordered hordered)
        (fun h => hreturn (hmem _ h)) (fun h => hfeed (hmem _ h)) (by omega)
      exact ⟨_, by rw [Tokenizer.drain_of_token hnext, hdrain]; rfl⟩

/-- **The pieces of a script.** In every run of calls on a new tokenizer, the script is cut at the
position of the scanner, at first in front of everything. A call that gives a token reads the piece
of this token, from where the call before has stopped. At the end of the input only blanks are left,
so reading all tokens cuts the whole script into their pieces and these blanks. Without carriage
returns and form feeds every token moves the position on, and reading all tokens takes at most one
call more than the script has bytes. -/
theorem pieces_cover_script (script : Text) (o : Options) :
    (run script o 0).state.scan.position = 0 ∧
    (∀ n, script.splitAt? (run script o n).state.scan.position =
      some ((run script o n).state.scan.behind.reverse, (run script o n).state.scan.ahead)) ∧
    (∀ n token, (Tokenizer.next scanner (run script o n).state).answer = .ok (some token) →
      ∃ p : Piece, p.token = token ∧
        p.Read (run script o n).state (run script o (n + 1)).state) ∧
    (∀ n, (Tokenizer.next scanner (run script o n).state).answer = .ok none →
      (run script o n).state.session.modes.active ≠ heredocBody ∧
        ∀ a ∈ (run script o n).state.scan.ahead, a = ' ' ∨ a = '\t') ∧
    (∀ tokens t' ev,
      (∃ limit, Tokenizer.drain scanner limit (start script o) = some (.done tokens t' ev)) →
      ∃ (pieces : List Piece) (rest : Text), pieces.map (·.token) = tokens ∧
        script = pieces.flatMap Piece.text ++ rest ∧ (∀ a ∈ rest, a = ' ' ∨ a = '\t') ∧
        ReadInTurn script o pieces) ∧
    ('\r' ∉ script → '\x0c' ∉ script →
      (∀ n token, (Tokenizer.next scanner (run script o n).state).answer = .ok (some token) →
        (run script o n).state.scan.position < (run script o (n + 1)).state.scan.position) ∧
      ∃ outcome, Tokenizer.drain scanner (Text.size script + 1) (start script o) =
        some outcome) := by
  have htext : ∀ n, (run script o n).state.scan.text = script := fun n =>
    (orderedOver_run script o n).2
  refine ⟨rfl, fun n => ?_, fun n token h => (move_of_call script o h).exists_piece, fun n h => ?_,
    fun tokens t' ev h => ?_, fun hreturn hfeed => ⟨fun n token h => ?_, ?_⟩⟩
  · rw [← Cursor.splitAt?_position, htext n]
  · obtain ⟨hactive, hblank, -⟩ := (move_of_call script o h).blanks_of_end
    exact ⟨hactive, hblank⟩
  · obtain ⟨limit, hdrain⟩ := h
    exact exists_pieces_of_drain script o hdrain
  · have hmove := move_of_call script o h
    obtain ⟨p, rfl, hread⟩ := hmove.exists_piece
    have hmem : ∀ a ∈ (run script o n).state.scan.ahead, a ∈ script := by
      intro a ha
      rw [← htext n, Cursor.text]
      exact List.mem_append_right _ ha
    have hpos := Text.size_pos (hread.text_ne_nil hmove (fun h => hreturn (hmem _ h))
      fun h => hfeed (hmem _ h))
    rw [hread.position_eq]
    omega
  · exact exists_drain (t := start script o) (ordered_start o) hreturn hfeed (Nat.lt_succ_self _)

/-- A body is read with the line that closes it, and its letter `é` counts as two bytes. One blank
is left at the end. -/
theorem pieces_cover_script_body :
    let script : Text := ['<', '<', 'A', '\n', 'é', '\n', 'A', '\n', ' ', 'x', ' ']
    let body : Token := .heredocBody ['é', '\n']
    let tokens : List Token :=
      [.heredocStart, .heredocDelimiter ['A'], .newline, body, .word ['x']]
    '\r' ∉ script ∧ '\x0c' ∉ script ∧
      (Tokenizer.next scanner (run script {} 3).state).answer = .ok (some body) ∧
      (∃ p : Piece, p.token = body ∧ p.Read (run script {} 3).state (run script {} 4).state) ∧
      (run script {} 3).state.scan.position = 4 ∧ (run script {} 4).state.scan.position = 9 ∧
      (run script {} 3).state.scan.position < (run script {} 4).state.scan.position ∧
      (∃ limit, Tokenizer.drain scanner limit (start script {}) =
        some (.done tokens (run script {} 6).state (run script {} 6).events)) ∧
      ∃ (pieces : List Piece) (rest : Text), pieces.map (·.token) = tokens ∧
        script = pieces.flatMap Piece.text ++ rest ∧ ∀ a ∈ rest, a = ' ' ∨ a = '\t' := by
  refine ⟨by decide, by decide, by decide +kernel, ?_, by decide +kernel, by decide +kernel, ?_,
    ⟨6, rfl⟩, ?_⟩
  · exact (pieces_cover_script _ {}).2.2.1 3 _ (by decide +kernel)
  · exact ((pieces_cover_script _ {}).2.2.2.2.2 (by decide) (by decide)).1 3
      (.heredocBody ['é', '\n']) (by decide +kernel)
  · obtain ⟨pieces, rest, htokens, hscript, hblank, -⟩ :=
      (pieces_cover_script ['<', '<', 'A', '\n', 'é', '\n', 'A', '\n', ' ', 'x', ' '] {}).2.2.2.2.1
        [.heredocStart, .heredocDelimiter ['A'], .newline, .heredocBody ['é', '\n'], .word ['x']]
        _ _ ⟨6, rfl⟩
    exact ⟨pieces, rest, htokens, hscript, hblank⟩

end MiniShell

end ShellLexing
