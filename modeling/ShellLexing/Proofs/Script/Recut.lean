import Mathlib.Data.List.Basic
import ShellLexing.Script

/-!
# Cutting a script into deliveries

`Script.read` takes its bytes as they come. This file says what it makes of a sequence of
deliveries, without following it from one delivery to the next.

What counts are the deliveries before the first one that ends the reading (`Delivery.continues`):
the bytes in them (`received`), and whether what ended the reading is a failure (`fault?`).

**Theorem (`read_of_received`).** If the reading ended in a failure, that failure is the answer,
also when the bytes encode no text. Otherwise the answer is the text whose encoding was received, or
the failure to decode. So a stretch of deliveries can be replaced by any other that carries the same
bytes: they can be cut elsewhere, also within a character, and interrupted.

The proof says what `gather` comes to (`gather_eq`): it reports the fault, or adds to its bytes all
that will be received. Decoding sees the sum and not its parts, so nothing else has to be known.
-/

namespace ShellLexing.Script

/-! ## Deliveries that count -/

/-- More can come after this delivery: it brings bytes, or it is an interruption. -/
def Delivery.continues : Delivery → Bool
  | .bytes b => b.size != 0
  | .interrupted => true
  | .failed _ => false

/-- The bytes that a delivery brings. -/
def Delivery.payload : Delivery → ByteArray
  | .bytes b => b
  | .interrupted | .failed _ => .empty

/-- What a failing source says. -/
def Delivery.reason? : Delivery → Option String
  | .failed reason => some reason
  | .bytes _ | .interrupted => none

/-- The bytes of some deliveries, one after the other. -/
def joined (ds : List Delivery) : ByteArray := (ds.map Delivery.payload).foldr (· ++ ·) .empty

/-- The bytes that come before the end of the stream, or before a failure. -/
def received (ds : List Delivery) : ByteArray := joined (ds.takeWhile Delivery.continues)

/-- What the source says if the first delivery that ends the reading is a failure. -/
def fault? (ds : List Delivery) : Option String :=
  (ds.find? fun d => !d.continues).bind Delivery.reason?

theorem joined_cons (d : Delivery) (ds : List Delivery) :
    joined (d :: ds) = d.payload ++ joined ds := rfl

section
variable {d : Delivery} (ds : List Delivery)

theorem received_cons_of_continues (hd : d.continues = true) :
    received (d :: ds) = d.payload ++ received ds := by
  rw [received, List.takeWhile_cons_of_pos hd, joined_cons, ← received]

theorem received_cons_of_ends (hd : d.continues = false) : received (d :: ds) = .empty := by
  rw [received, List.takeWhile_cons_of_neg (by rw [hd]; exact Bool.false_ne_true)]
  rfl

theorem fault?_cons_of_continues (hd : d.continues = true) : fault? (d :: ds) = fault? ds := by
  rw [fault?, List.find?_cons_of_neg (by rw [hd]; exact Bool.false_ne_true), ← fault?]

theorem fault?_cons_of_ends (hd : d.continues = false) : fault? (d :: ds) = d.reason? := by
  rw [fault?, List.find?_cons_of_pos (by rw [hd]; rfl)]
  rfl

end

/-- A fault is a failure that nothing but bytes and interruptions came before. -/
theorem fault?_eq_some_iff {ds : List Delivery} {reason : String} :
    fault? ds = some reason ↔ ∃ before after,
      ds = before ++ .failed reason :: after ∧ ∀ d ∈ before, d.continues = true := by
  constructor
  · intro h
    obtain ⟨d, hd, hreason⟩ := Option.bind_eq_some_iff.1 h
    obtain ⟨-, before, after, hds, hbefore⟩ := List.find?_eq_some_iff_append.1 hd
    cases d with
    | bytes b => cases hreason
    | interrupted => cases hreason
    | failed r =>
      cases hreason
      exact ⟨before, after, hds, fun e he => by simpa using hbefore e he⟩
  · rintro ⟨before, after, rfl, hbefore⟩
    refine Option.bind_eq_some_iff.2 ⟨.failed reason, List.find?_eq_some_iff_append.2 ?_, rfl⟩
    exact ⟨rfl, before, after, rfl, fun e he => by simpa using hbefore e he⟩

/-! ## Gathering -/

theorem gather_cons_of_continues {d : Delivery} (hd : d.continues = true) (sofar : ByteArray)
    (ds : List Delivery) : gather sofar (d :: ds) = gather (sofar ++ d.payload) ds := by
  cases d with
  | bytes b =>
    have hb : b.size ≠ 0 := by simpa [Delivery.continues] using hd
    rw [gather, if_neg hb, Delivery.payload]
  | interrupted => rw [gather, Delivery.payload, ByteArray.append_empty]
  | failed reason => cases hd

theorem gather_cons_of_ends {d : Delivery} (hd : d.continues = false) (sofar : ByteArray)
    (ds : List Delivery) :
    gather sofar (d :: ds) = d.reason?.elim (.ok sofar) (.error <| .device ·) := by
  cases d with
  | bytes b =>
    have hb : b.size = 0 := by simpa [Delivery.continues] using hd
    rw [gather, if_pos hb]
    rfl
  | interrupted => cases hd
  | failed reason => rfl

/-- Gathering fails with the fault, or adds what is received. -/
theorem gather_eq (sofar : ByteArray) (ds : List Delivery) :
    gather sofar ds = (fault? ds).elim (.ok (sofar ++ received ds)) (.error <| .device ·) := by
  induction ds generalizing sofar with
  | nil => exact congrArg Except.ok ByteArray.append_empty.symm
  | cons d ds ih =>
    cases hd : d.continues with
    | true =>
      rw [gather_cons_of_continues hd, ih, fault?_cons_of_continues ds hd,
        received_cons_of_continues ds hd, ByteArray.append_assoc]
    | false =>
      rw [gather_cons_of_ends hd, fault?_cons_of_ends ds hd, received_cons_of_ends ds hd,
        ByteArray.append_empty]

theorem gather_append {cut : List Delivery} (hcut : ∀ d ∈ cut, d.continues = true)
    (sofar : ByteArray) (after : List Delivery) :
    gather sofar (cut ++ after) = gather (sofar ++ joined cut) after := by
  induction cut generalizing sofar with
  | nil => exact congrArg (gather · after) ByteArray.append_empty.symm
  | cons d cut ih =>
    rw [List.cons_append, gather_cons_of_continues (hcut d List.mem_cons_self),
      ih fun e he => hcut e (List.mem_cons_of_mem d he), joined_cons, ByteArray.append_assoc]

/-- What `gather` makes of a sequence depends on the bytes of its stretches, not on their cuts. -/
theorem gather_recut {cut recut : List Delivery} (hcut : ∀ d ∈ cut, d.continues = true)
    (hrecut : ∀ d ∈ recut, d.continues = true) (hjoined : joined recut = joined cut)
    (sofar : ByteArray) (before after : List Delivery) :
    gather sofar (before ++ recut ++ after) = gather sofar (before ++ cut ++ after) := by
  induction before generalizing sofar with
  | nil =>
    rw [List.nil_append, List.nil_append, gather_append hrecut, gather_append hcut, hjoined]
  | cons d before ih =>
    simp only [List.cons_append]
    cases hd : d.continues with
    | true => rw [gather_cons_of_continues hd, gather_cons_of_continues hd, ih]
    | false => rw [gather_cons_of_ends hd, gather_cons_of_ends hd]

/-! ## Reading -/

theorem read_of_gather {ds es : List Delivery} (h : gather .empty es = gather .empty ds) :
    read es = read ds := by
  rw [read, h, read]

/-- Bytes that encode no text fail to decode. -/
theorem decode_eq_error_iff {b : ByteArray} {cause : ReadFailure} :
    decode b = .error cause ↔ cause = .invalidUtf8 ∧ ∀ s : String, b ≠ s.toUTF8 := by
  cases hdecode : decode b with
  | ok s =>
    exact ⟨nofun, fun h => absurd (decode_eq_ok_iff.1 hdecode) (h.2 s)⟩
  | error e =>
    have he : e = .invalidUtf8 := by
      unfold decode at hdecode
      split at hdecode
      · cases hdecode
      · exact (Except.error.inj hdecode).symm
    subst he
    have hno : ∀ s : String, b ≠ s.toUTF8 := by
      intro s hs
      rw [decode_eq_ok_iff.2 hs] at hdecode
      cases hdecode
    exact ⟨fun h => ⟨(Except.error.inj h).symm, hno⟩, fun h => by rw [h.1]⟩

theorem read_of_fault {ds : List Delivery} {reason : String} (h : fault? ds = some reason) :
    read ds = .error (.read (.device reason)) := by
  rw [read, gather_eq, h]
  rfl

section
variable {ds : List Delivery} (h : fault? ds = none)
include h

theorem read_of_no_fault : read ds = (decode (received ds)).mapError .read := by
  rw [read, gather_eq, h, ByteArray.empty_append]
  rfl

theorem read_eq_ok_iff_of_no_fault {s : String} : read ds = .ok s ↔ received ds = s.toUTF8 := by
  rw [read_of_no_fault h, ← decode_eq_ok_iff]
  cases decode (received ds) with
  | ok t => exact ⟨fun e => congrArg _ (Except.ok.inj e), fun e => congrArg _ (Except.ok.inj e)⟩
  | error cause => exact ⟨nofun, nofun⟩

theorem read_eq_error_iff_of_no_fault {cause : ReadFailure} :
    read ds = .error (.read cause) ↔
      cause = .invalidUtf8 ∧ ∀ s : String, received ds ≠ s.toUTF8 := by
  rw [read_of_no_fault h, ← decode_eq_error_iff]
  cases decode (received ds) with
  | ok t => exact ⟨nofun, nofun⟩
  | error e => simp [Except.mapError]

end

/-- **Reading.** A fault is the answer, whatever was received before it. Without a fault the answer
is the text whose encoding was received, if there is one. So sequences with the same fault and the
same bytes read the same; a stretch of them can be cut in another way, and interrupted. -/
theorem read_of_received (ds : List Delivery) :
    (∀ reason, read ds = .error (.read (.device reason)) ↔
        ∃ before after, ds = before ++ .failed reason :: after ∧
          ∀ d ∈ before, d.continues = true) ∧
      (∀ s, read ds = .ok s ↔ fault? ds = none ∧ received ds = s.toUTF8) ∧
      (read ds = .error (.read .invalidUtf8) ↔
        fault? ds = none ∧ ∀ s : String, received ds ≠ s.toUTF8) ∧
      (∀ es, fault? es = fault? ds → received es = received ds → read es = read ds) ∧
      (∀ before cut recut after, ds = before ++ cut ++ after →
        (∀ d ∈ cut, d.continues = true) → (∀ d ∈ recut, d.continues = true) →
        joined recut = joined cut → read (before ++ recut ++ after) = read ds) ∧
      ∀ before after, ds = before ++ after → read (before ++ .interrupted :: after) = read ds := by
  have hrecut : ∀ before cut recut after, ds = before ++ cut ++ after →
      (∀ d ∈ cut, d.continues = true) → (∀ d ∈ recut, d.continues = true) →
      joined recut = joined cut → read (before ++ recut ++ after) = read ds := by
    rintro before cut recut after rfl hcut hrecut hjoined
    exact read_of_gather (gather_recut hcut hrecut hjoined .empty before after)
  refine ⟨fun reason => ?_, fun s => ?_, ?_, fun es hfault hreceived => ?_, hrecut, ?_⟩
  · rw [← fault?_eq_some_iff]
    cases hf : fault? ds with
    | some r => simp [read_of_fault hf]
    | none =>
      -- Without a fault there is only one failure left, and it is none of the source.
      refine ⟨fun h => ?_, nofun⟩
      cases ((read_eq_error_iff_of_no_fault hf).1 h).1
  · cases hf : fault? ds with
    | some r => simp [read_of_fault hf]
    | none => simp [read_eq_ok_iff_of_no_fault hf]
  · cases hf : fault? ds with
    | some r => simp [read_of_fault hf]
    | none => simp [read_eq_error_iff_of_no_fault hf]
  · exact read_of_gather (by rw [gather_eq, gather_eq, hfault, hreceived])
  · intro before after hds
    have h := hrecut before [] [.interrupted] after (by rw [hds, List.append_nil]) nofun
      (fun d hd => by rw [List.mem_singleton.1 hd]; rfl) ByteArray.append_empty
    rwa [List.append_assoc, List.singleton_append] at h

/-- The two bytes of `é` come in two deliveries with an interruption between them; the failure
behind the end of the stream is not met. A failure before the end is the answer, also after bytes
that encode nothing. -/
theorem read_of_received_split_character :
    read [.bytes "a".toUTF8, .bytes ⟨#[0xC3]⟩, .interrupted, .bytes ⟨#[0xA9]⟩, .bytes .empty,
        .failed "gone"] = .ok "aé" ∧
      read [.bytes "aé".toUTF8] = .ok "aé" ∧
      read [.bytes ⟨#[0xC3]⟩, .interrupted, .failed "gone"] = .error (.read (.device "gone")) := by
  obtain ⟨-, hok, -, hsame, hrecut, -⟩ :=
    read_of_received [.bytes "aé".toUTF8, .bytes .empty, .failed "gone"]
  obtain ⟨hfault, -, -, -, -, hinterrupt⟩ :=
    read_of_received [.bytes ⟨#[0xC3]⟩, .failed "gone"]
  have hread := (hok "aé").2 ⟨by decide, by decide⟩
  refine ⟨?_, ?_, ?_⟩
  · have h := hrecut [] [.bytes "aé".toUTF8]
      [.bytes "a".toUTF8, .bytes ⟨#[0xC3]⟩, .interrupted, .bytes ⟨#[0xA9]⟩]
      [.bytes .empty, .failed "gone"] rfl (by decide) (by decide) (by decide)
    exact h.trans hread
  · exact (hsame [.bytes "aé".toUTF8] (by decide) (by decide)).trans hread
  · have h := hinterrupt [.bytes ⟨#[0xC3]⟩] [.failed "gone"] rfl
    exact h.trans ((hfault "gone").2 ⟨[.bytes ⟨#[0xC3]⟩], [], rfl, by decide⟩)

end ShellLexing.Script
