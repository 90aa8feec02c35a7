import ProjectOS.Lib.Relay
import ProjectOS.Gateway.Policy

/-! The parser of the events a provider streams. -/

namespace ProjectOS.Gateway
open Lib

/-- The first bytes of a character: how many are owed, the next one's bounds, the
value so far. -/
structure OpenChar where
  owed : Nat
  low : Nat
  high : Nat
  value : Nat

def replacement : Char := Char.ofNat 0xFFFD

def leadByte (b : Nat) : List Char × Option OpenChar :=
  if b ≤ 0x7F then ([Char.ofNat b],none)
  else if 0xC2 ≤ b ∧ b ≤ 0xDF then ([],some ⟨1,0x80,0xBF,b-0xC0⟩)
  else if b = 0xE0 then ([],some ⟨2,0xA0,0xBF,0⟩)
  else if b = 0xED then ([],some ⟨2,0x80,0x9F,0xD⟩)
  else if 0xE1 ≤ b ∧ b ≤ 0xEF then ([],some ⟨2,0x80,0xBF,b-0xE0⟩)
  else if b = 0xF0 then ([],some ⟨3,0x90,0xBF,0⟩)
  else if 0xF1 ≤ b ∧ b ≤ 0xF3 then ([],some ⟨3,0x80,0xBF,b-0xF0⟩)
  else if b = 0xF4 then ([],some ⟨3,0x80,0x8F,4⟩)
  else ([replacement],none)

def nextByte (b : Nat) : Option OpenChar → List Char × Option OpenChar
  | none => leadByte b
  | some c =>
    if c.low ≤ b ∧ b ≤ c.high then
      if c.owed ≤ 1 then ([Char.ofNat (c.value*64+(b-0x80))],none)
      else ([],some ⟨c.owed-1,0x80,0xBF,c.value*64+(b-0x80)⟩)
    else (replacement :: (leadByte b).1,(leadByte b).2)

def decodeLossy : Option OpenChar → Bytes → List Char
  | none, [] => []
  | some _, [] => [replacement]
  | c, b :: rest => (nextByte b.toNat c).1 ++ decodeLossy (nextByte b.toNat c).2 rest

def fromUtf8Lossy (bytes : Bytes) : String := String.ofList (decodeLossy none bytes)

def eventDataBytesMax : Nat := 1024*1024

structure SseEvent where
  event : Option String
  data : String
  deriving DecidableEq

inductive SseParseError where
  | eventTooLarge (bytes : Nat)
  deriving DecidableEq

structure SseDecoder where
  line_buffer : Bytes
  event_name : Option String
  data_lines : List String
  deriving DecidableEq

namespace SseDecoder

def new : SseDecoder := ⟨[],none,[]⟩

def bufferedLen (d : SseDecoder) : Nat :=
  d.line_buffer.length + (d.data_lines.map String.utf8ByteSize).sum

def checked (d : SseDecoder) : Except SseParseError (SseDecoder × Option SseEvent) :=
  if eventDataBytesMax < d.bufferedLen then .error (.eventTooLarge d.bufferedLen) else .ok (d,none)

def fieldValue (field : String) (line : List Char) : Option String :=
  (stripPrefix field line).map fun value =>
    String.ofList ((stripPrefix " " value).getD value)

def lineComplete (d : SseDecoder) : Except SseParseError (SseDecoder × Option SseEvent) :=
  let bytes := if d.line_buffer.getLast? = some 13 then d.line_buffer.dropLast else d.line_buffer
  let line := decodeLossy none bytes
  let d := { d with line_buffer := [] }
  if line = [] then
    if d.data_lines ≠ [] ∨ d.event_name.isSome then
      .ok (new,some ⟨d.event_name,"\n".intercalate d.data_lines⟩)
    else .ok (d,none)
  else
    match fieldValue "data:" line with
    | some value => checked { d with data_lines := d.data_lines ++ [value] }
    | none =>
      match fieldValue "event:" line with
      | some value => .ok ({ d with event_name := some value },none)
      | none => .ok (d,none)

def push (d : SseDecoder) (byte : UInt8) : Except SseParseError (SseDecoder × Option SseEvent) :=
  if byte = 10 then d.lineComplete
  else checked { d with line_buffer := d.line_buffer ++ [byte] }

def feed (d : SseDecoder) (chunk : Bytes) : List SseEvent × Except SseParseError SseDecoder :=
  Relay.feed push d chunk

theorem feed_runaway {byte : UInt8} (hbyte : byte ≠ 10) (d : SseDecoder) {n : Nat}
    (h : eventDataBytesMax < d.bufferedLen+n) (hfits : d.bufferedLen ≤ eventDataBytesMax) :
    ∃ e, d.feed (List.replicate n byte) = ([],.error e) := by
  induction n generalizing d with
  | zero => omega
  | succ n ih =>
    have hlen : ({ d with line_buffer := d.line_buffer ++ [byte] } : SseDecoder).bufferedLen =
        d.bufferedLen+1 := by
      simp [bufferedLen]
      omega
    rw [List.replicate_succ,feed,Relay.feed,push,if_neg hbyte,checked]
    by_cases hover : eventDataBytesMax < d.bufferedLen+1
    · rw [hlen,if_pos hover]
      exact ⟨_,rfl⟩
    · rw [hlen,if_neg hover]
      obtain ⟨e,he⟩ := ih { d with line_buffer := d.line_buffer ++ [byte] } (by omega) (by omega)
      rw [feed] at he
      simp only [he]
      exact ⟨e,rfl⟩

end SseDecoder
end ProjectOS.Gateway
