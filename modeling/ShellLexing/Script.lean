import ShellLexing.Failure

/-!
# Reading a script

The bytes of a script come in deliveries, until one is empty, which is the end of the stream, or the
source fails. After an interruption the next delivery is waited for. What has come by the end is the
script, if it is the UTF-8 encoding of a text.
-/

namespace ShellLexing

namespace Script

/-- What a source of bytes does when it is asked for more. -/
inductive Delivery where
  /-- It hands out bytes; none at the end of the stream. -/
  | bytes (b : ByteArray)
  /-- It was interrupted and has to be asked again. -/
  | interrupted
  /-- It fails, and says why. -/
  | failed (reason : String)

/-- The bytes of `sofar` and those that are still delivered before the end of the stream. -/
def gather (sofar : ByteArray) : List Delivery → Except ReadFailure ByteArray
  | [] => .ok sofar
  | .bytes b :: rest => if b.size = 0 then .ok sofar else gather (sofar ++ b) rest
  | .interrupted :: rest => gather sofar rest
  | .failed reason :: _ => .error (.device reason)

def decode (b : ByteArray) : Except ReadFailure String :=
  match String.fromUTF8? b with
  | some s => .ok s
  | none => .error .invalidUtf8

/-- Read the whole script. A failing source is reported as such, whatever came before. -/
def read (deliveries : List Delivery) : Except FatalError String :=
  ((gather .empty deliveries).bind decode).mapError .read

/-- Decoding accepts exactly the encodings of strings, and each as the string it encodes. -/
theorem decode_eq_ok_iff {b : ByteArray} {s : String} : decode b = .ok s ↔ b = s.toUTF8 := by
  unfold decode String.fromUTF8?
  by_cases h : b.IsValidUTF8
  · rw [dif_pos h]
    constructor
    · rintro ⟨⟩
      rfl
    · rintro rfl
      rfl
  · rw [dif_neg h]
    refine ⟨fun e => by simp at e, ?_⟩
    rintro rfl
    exact absurd s.isValidUTF8 h

end Script

end ShellLexing
