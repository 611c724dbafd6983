import ShellLexing.Proofs.MiniShell.Contracts
import ShellLexing.Proofs.Text.Lines
import ShellLexing.Proofs.Text.Runs

/-!
# Bodies of here-documents in the miniature shell

A script announces here-documents and gives their bodies later, several of them in a row and with
other constructs in between. This file shows that the tokens pair them up.

**Conservation** (`Move.conserves`, `conserves_run`). What is pending and what a step announces is
what the step closes and what is pending behind it. So of all that was announced the first ones are
closed, one for each body, and the rest are pending.

**Main result** (`heredocs_in_order`). The `j`-th body among the tokens belongs to the `j`-th
delimiter. It consists of whole lines, none of which is the marker of that delimiter, and it was
read together with the line behind it, which is the marker. In the mode of bodies there is always
one to read.

The tokens alone do not show where they were read. `ReadsBody` therefore speaks of the places in
front of and behind the step that gave the body.
-/

namespace ShellLexing.MiniShell

/-! ## Delimiters and bodies among tokens -/

/-- The raw delimiter words among tokens, in order. -/
def delimiters (tokens : List Token) : List Text :=
  tokens.filterMap fun
    | .heredocDelimiter raw => some raw
    | _ => none

/-- The bodies of here-documents among tokens, in order. -/
def bodies (tokens : List Token) : List Text :=
  tokens.filterMap fun
    | .heredocBody text => some text
    | _ => none

/-- The here-documents that tokens announce. -/
def announced (tokens : List Token) : List Heredoc :=
  (delimiters tokens).map fun raw => .ofDelimiter raw false

theorem delimiters_append (xs ys : List Token) :
    delimiters (xs ++ ys) = delimiters xs ++ delimiters ys := List.filterMap_append

theorem bodies_append (xs ys : List Token) : bodies (xs ++ ys) = bodies xs ++ bodies ys :=
  List.filterMap_append

theorem announced_append (xs ys : List Token) :
    announced (xs ++ ys) = announced xs ++ announced ys := by
  rw [announced, delimiters_append, List.map_append]
  rfl

theorem classify_plain (text : Text) (s : Session) :
    delimiters [(classify text s).1] = [] ∧ bodies [(classify text s).1] = [] := by
  unfold classify
  split_ifs <;> exact ⟨rfl, rfl⟩

theorem eq_of_getElem?_bodies {found : Option Token} {i : Nat} {body : Text}
    (h : (bodies found.toList)[i]? = some body) :
    i = 0 ∧ found = some (.heredocBody body) := by
  cases found with
  | none => cases h
  | some token =>
    cases token with
    | heredocBody text =>
      cases i with
      | zero =>
        obtain rfl := Option.some.inj h
        exact ⟨rfl, rfl⟩
      | succ i => cases h
    | _ => cases h

/-! ## Reading a body -/

/-- Between the places `c` and `c'` a body and the line that closes it are read. No line of the body
is the marker, and the line behind the body is; it may lack its newline at the end of the script. -/
def ReadsBody (marker body : Text) (c c' : Cursor) : Prop :=
  ∃ (lines : List Text) (closing : Text),
    body = lines.flatMap (· ++ ['\n']) ∧ (∀ line ∈ lines, '\n' ∉ line ∧ line ≠ marker) ∧
    c.ahead = body ++ closing ++ c'.ahead ∧ c' = c.skip (body.length + closing.length) ∧
    '\n' ∉ marker ∧ (closing = marker ++ ['\n'] ∨ closing = marker ∧ marker ≠ [] ∧ c'.ahead = [])

theorem dropNewline_of_not_mem {t : Text} (h : '\n' ∉ t) : t.dropNewline = t :=
  Text.dropNewline_eq_self fun hlast => h (List.mem_of_getLast? hlast)

theorem readsBody_of_lines {c : Cursor} {lines rest : List Text} {line marker : Text}
    (hlines : Text.lines c.ahead = lines ++ line :: rest)
    (hopen : ∀ l ∈ lines, l.dropNewline ≠ marker) (hclose : line.dropNewline = marker) :
    ReadsBody marker lines.flatten c (c.skip (lines.flatten.length + line.length)) := by
  have hahead : c.ahead = lines.flatten ++ line ++ rest.flatten := by
    rw [← Text.flatten_lines c.ahead, hlines, List.flatten_append, List.flatten_cons,
      List.append_assoc]
  have hbehind : (c.skip (lines.flatten.length + line.length)).ahead = rest.flatten := by
    rw [Cursor.ahead_skip, hahead, ← List.length_append, List.drop_left]
  -- A line of the body has others behind it, so it ends in a newline.
  have hwhole : ∀ l ∈ lines, l = l.dropNewline ++ ['\n'] ∧ '\n' ∉ l.dropNewline := by
    intro l hl
    obtain ⟨before, after, rfl⟩ := List.append_of_mem hl
    rw [List.append_assoc, List.cons_append] at hlines
    obtain ⟨body, hbody, rfl | ⟨-, -, hlast⟩⟩ := Text.exists_of_lines_eq hlines
    · rw [Text.dropNewline_concat]
      exact ⟨rfl, hbody⟩
    · exact absurd hlast (by simp)
  refine ⟨lines.map Text.dropNewline, line, ?_, ?_, by rw [hbehind, hahead], rfl, ?_⟩
  · rw [List.flatMap_def, List.map_map]
    have hsame : lines.map ((· ++ ['\n']) ∘ Text.dropNewline) = lines.map id :=
      List.map_congr_left fun l hl => (hwhole l hl).1.symm
    rw [hsame, List.map_id]
  · intro l hl
    obtain ⟨l', hl', rfl⟩ := List.mem_map.1 hl
    exact ⟨(hwhole l' hl').2, hopen l' hl'⟩
  · obtain ⟨body, hbody, rfl | ⟨rfl, hne, rfl⟩⟩ := Text.exists_of_lines_eq hlines
    · rw [Text.dropNewline_concat] at hclose
      exact hclose ▸ ⟨hbody, Or.inl rfl⟩
    · rw [dropNewline_of_not_mem hbody] at hclose
      exact hclose ▸ ⟨hbody, Or.inr ⟨rfl, hne, hbehind⟩⟩

/-! ## One step -/

variable {c : Cursor} {s : Session} {t : Tokenizer Cursor}

/-- **Conservation**: what was pending and what a step announces is what it closes, one
here-document for each body, and what is pending behind it. -/
theorem Move.conserves {a : Except MatchFailure (Option Token)} (hmove : Move c s a t) :
    ∃ closed : List Heredoc, closed.length = (bodies (Run.token? a).toList).length ∧
      s.heredocs.pending ++ announced (Run.token? a).toList =
        closed ++ t.session.heredocs.pending := by
  cases hmove with
  | @body _ _ _ d _ _ _ _ _ hpending | @lastBody _ _ _ d _ _ _ _ _ _ hpending =>
    refine ⟨[d], rfl, ?_⟩
    rw [hpending]
    exact List.append_nil _
  | delimiter => exact ⟨[], rfl, rfl⟩
  | word =>
    have hplain := classify_plain (c.ahead.takeWhile isWordChar) s
    obtain ⟨context, hs⟩ := exists_context_classify (c.ahead.takeWhile isWordChar) s
    refine ⟨[], ?_, ?_⟩
    · rw [Run.token?, Option.toList_some, hplain.2]
      rfl
    · rw [Run.token?, Option.toList_some, announced, hplain.1, hs]
      exact List.append_nil _
  | _ => exact ⟨[], rfl, List.append_nil _⟩

theorem closedBy_of_pending {q : HeredocQueue} {d : Heredoc} {pending : List Heredoc}
    (hq : q.pending = d :: pending) (htabs : d.ignoresTabs = false) (line : Text) :
    q.closedBy line = decide (line.dropNewline = d.marker) := by
  rw [HeredocQueue.closedBy_of_pending_eq_cons hq, Heredoc.closedBy, htabs]
  rfl

/-- A step that gives a body reads it, with its closing line, for the here-document in front. -/
theorem Move.readsBody {body : Text} (hmove : Move c s (.ok (some (.heredocBody body))) t)
    (htabs : ∀ d ∈ s.heredocs.pending, d.ignoresTabs = false) :
    s.modes.active = heredocBody ∧ ∃ d pending, s.heredocs.pending = d :: pending ∧
      ReadsBody d.marker body c t.scan := by
  generalize ha : (Except.ok (some (Token.heredocBody body)) :
    Except MatchFailure (Option Token)) = a at hmove
  have hreads : ∀ {lines rest : List Text} {line : Text} {d : Heredoc} {pending : List Heredoc},
      Text.lines c.ahead = lines ++ line :: rest →
      (∀ l ∈ lines, s.heredocs.closedBy l = false) → s.heredocs.closedBy line = true →
      s.heredocs.pending = d :: pending →
      ReadsBody d.marker lines.flatten c (c.skip (lines.flatten.length + line.length)) := by
    intro lines rest line d pending hlines hopen hclose hpending
    have hclosed := closedBy_of_pending hpending (htabs d (hpending ▸ List.mem_cons_self))
    refine readsBody_of_lines hlines (fun l hl => ?_) ?_
    · exact of_decide_eq_false ((hclosed l).symm.trans (hopen l hl))
    · exact of_decide_eq_true ((hclosed line).symm.trans hclose)
  cases hmove with
  | body hactive hlines hopen hclose hpending =>
    cases ha
    exact ⟨hactive, _, _, hpending, hreads hlines hopen hclose hpending⟩
  | lastBody hactive hlines hopen hclose hpending =>
    cases ha
    exact ⟨hactive, _, _, hpending, hreads hlines hopen hclose hpending⟩
  | word =>
    have hplain := (classify_plain (c.ahead.takeWhile isWordChar) s).2
    rw [← Option.some.inj (Except.ok.inj ha)] at hplain
    cases hplain
  | _ => cases ha

/-! ## Runs -/

variable (script : Text) (o : Options)

theorem conserves_run (n : Nat) :
    ∃ closed : List Heredoc, closed.length = (bodies (run script o n).tokens).length ∧
      announced (run script o n).tokens =
        closed ++ (run script o n).state.session.heredocs.pending := by
  induction n with
  | zero => exact ⟨[], rfl, rfl⟩
  | succ n ih =>
    obtain ⟨closed, hlen, hbalance⟩ := ih
    obtain ⟨closed', hlen', hbalance'⟩ :=
      (move_advance (orderedOver_run script o n).1).conserves
    rw [tokens_run_succ, state_run_succ]
    refine ⟨closed ++ closed', ?_, ?_⟩
    · rw [bodies_append, List.length_append, List.length_append, hlen, hlen']
    · rw [announced_append, hbalance, List.append_assoc, hbalance', List.append_assoc]

theorem ignoresTabs_of_pending {n : Nat} {d : Heredoc}
    (hd : d ∈ (run script o n).state.session.heredocs.pending) : d.ignoresTabs = false := by
  obtain ⟨closed, -, hbalance⟩ := conserves_run script o n
  have hmem : d ∈ announced (run script o n).tokens :=
    hbalance ▸ List.mem_append_right closed hd
  obtain ⟨raw, -, rfl⟩ := List.mem_map.1 hmem
  rfl

theorem exists_call_of_body {n j : Nat} {body : Text}
    (h : (bodies (run script o n).tokens)[j]? = some body) :
    ∃ k < n, (bodies (run script o k).tokens).length = j ∧
      (advance (run script o k).state).answer = .ok (some (.heredocBody body)) := by
  induction n with
  | zero => cases h
  | succ n ih =>
    rw [tokens_run_succ, bodies_append] at h
    by_cases hj : j < (bodies (run script o n).tokens).length
    · rw [List.getElem?_append_left hj] at h
      obtain ⟨k, hk, hcall⟩ := ih h
      exact ⟨k, Nat.lt_succ_of_lt hk, hcall⟩
    · rw [List.getElem?_append_right (Nat.le_of_not_lt hj)] at h
      obtain ⟨hlast, htoken⟩ := eq_of_getElem?_bodies h
      refine ⟨n, Nat.lt_succ_self n, ?_, Run.eq_of_token? htoken⟩
      omega

/-- The call that gives a body reads it for the delimiter that has its number. -/
theorem readsBody_of_call {k : Nat} {body : Text}
    (h : (advance (run script o k).state).answer = .ok (some (.heredocBody body))) :
    ∃ raw, (delimiters (run script o k).tokens)[(bodies (run script o k).tokens).length]? =
        some raw ∧
      ReadsBody (Delimiter.marker raw false) body (run script o k).state.scan
        (run script o (k + 1)).state.scan := by
  have hmove := move_advance (orderedOver_run script o k).1
  rw [h, ← state_run_succ] at hmove
  obtain ⟨hactive, d, pending, hpending, hreads⟩ :=
    hmove.readsBody fun d hd => ignoresTabs_of_pending script o hd
  rw [front, if_pos hactive] at hreads
  obtain ⟨closed, hlen, hbalance⟩ := conserves_run script o k
  have hfront : (announced (run script o k).tokens)[closed.length]? = some d := by
    rw [hbalance, hpending, List.getElem?_append_right (Nat.le_refl _), Nat.sub_self]
    rfl
  rw [announced, List.getElem?_map, hlen] at hfront
  obtain ⟨raw, hraw, rfl⟩ := Option.map_eq_some_iff.1 hfront
  exact ⟨raw, hraw, hreads⟩

theorem delimiters_run_prefix {k n : Nat} (h : k ≤ n) {j : Nat} {raw : Text}
    (hraw : (delimiters (run script o k).tokens)[j]? = some raw) :
    (delimiters (run script o n).tokens)[j]? = some raw := by
  have hprefix : (run script o k).tokens <+: (run script o n).tokens :=
    Tokenizer.tokens_calls_prefix h
  obtain ⟨later, hlater⟩ := hprefix
  rw [← hlater, delimiters_append,
    List.getElem?_append_left (List.getElem?_eq_some_iff.1 hraw).1]
  exact hraw

/-- **Here-documents in order.** After any number of calls on a new tokenizer, the pending
here-documents are the delimiters less the bodies, and one is pending while bodies are read. The
`j`-th body consists of whole lines that are not the marker of the `j`-th delimiter, and the call
that gave it went on to the end of the next line, which is. -/
theorem heredocs_in_order (n : Nat) :
    (bodies (run script o n).tokens).length ≤ (delimiters (run script o n).tokens).length ∧
    (run script o n).state.session.heredocs.size =
      (delimiters (run script o n).tokens).length - (bodies (run script o n).tokens).length ∧
    ((run script o n).state.session.modes.active = heredocBody →
      (run script o n).state.session.heredocs.pending ≠ []) ∧
    ∀ j body, (bodies (run script o n).tokens)[j]? = some body →
      ∃ raw, (delimiters (run script o n).tokens)[j]? = some raw ∧
        ∃ k < n, (bodies (run script o k).tokens).length = j ∧
          (Tokenizer.next scanner (run script o k).state).answer =
            .ok (some (.heredocBody body)) ∧
          (run script o k).state.scan.text = script ∧
          ReadsBody (Delimiter.marker raw false) body (run script o k).state.scan
            (run script o (k + 1)).state.scan := by
  obtain ⟨closed, hlen, hbalance⟩ := conserves_run script o n
  have hcount : (delimiters (run script o n).tokens).length =
      (bodies (run script o n).tokens).length +
        (run script o n).state.session.heredocs.pending.length := by
    rw [← hlen, ← List.length_append, ← hbalance, announced, List.length_map]
  refine ⟨?_, ?_, (orderedOver_run script o n).1.pending_ne_nil, fun j body hbody => ?_⟩
  · omega
  · rw [HeredocQueue.size]
    omega
  · obtain ⟨k, hk, rfl, hcall⟩ := exists_call_of_body script o hbody
    obtain ⟨raw, hraw, hreads⟩ := readsBody_of_call script o hcall
    refine ⟨raw, delimiters_run_prefix script o (Nat.le_of_lt hk) hraw, k, hk, rfl, ?_,
      (orderedOver_run script o k).2, hreads⟩
    refine Run.eq_of_token? ?_
    rw [Tokenizer.token?_next]
    exact congrArg Run.token? hcall

/-- In `<<A <<'B'` the first body may have a line `B`. The second body is empty, and is read for the
delimiter `'B'`. -/
theorem heredocs_in_order_two :
    let script : Text :=
      ['<', '<', 'A', ' ', '<', '<', '\'', 'B', '\'', '\n', 'B', '\n', 'A', '\n', 'B', '\n']
    bodies (run script {} 7).tokens = [['B', '\n'], []] ∧
      ∃ raw, (delimiters (run script {} 7).tokens)[1]? = some raw ∧
        ∃ k < 7, (bodies (run script {} k).tokens).length = 1 ∧
          ReadsBody (Delimiter.marker raw false) [] (run script {} k).state.scan
            (run script {} (k + 1)).state.scan := by
  intro script
  have hbodies : bodies (run script {} 7).tokens = [['B', '\n'], []] := by decide +kernel
  have hsecond : (bodies (run script {} 7).tokens)[1]? = some [] := by rw [hbodies]; rfl
  obtain ⟨raw, hraw, k, hk, hlen, -, -, hreads⟩ :=
    (heredocs_in_order script {} 7).2.2.2 1 [] hsecond
  exact ⟨hbodies, raw, hraw, k, hk, hlen, hreads⟩

end ShellLexing.MiniShell
