import ProjectOS.Gateway.Wire
import ProjectOS.Lib.Text

/-! What comes back over a socket: a head, a body in chunks, and how the
transport says it ended. -/

namespace ProjectOS.Gateway
open Lib List

structure HttpHead where
  status : Nat
  headers : List (String × String)

def HttpHead.header (head : HttpHead) (name : String) : Option String :=
  (head.headers.find? fun h => h.1 = name).map Prod.snd

inductive TransportError where
  | hostRefused (host reason : String)
  | urlInvalid (url : String)
  | connect (reason : String)
  | timeout (timeout_ms : Nat)
  | protocol (reason : String)
  | io (reason : String)
  | aborted
  deriving DecidableEq

def TransportError.text : TransportError → String
  | .hostRefused host reason => s!"refusing host {host.quote}: {reason}"
  | .urlInvalid url => s!"URL did not parse: {url.quote}"
  | .connect reason => s!"connect failed: {reason}"
  | .timeout timeout_ms => s!"transport timed out after {timeout_ms} ms"
  | .protocol reason => s!"HTTP framing violation: {reason}"
  | .io reason => s!"transport I/O failed: {reason}"
  | .aborted => "handler aborted the stream"

/-- What a transport brings to a handler that never stops it, and how it returns. -/
inductive Exchange where
  | headless (ending : Except TransportError Unit)
  | answered (head : HttpHead) (chunks : List Bytes) (ending : Except TransportError Unit)

structure ResponseHandler (η : Type) where
  onHead : η → HttpHead → η × Bool
  onChunk : η → Bytes → η × Bool

namespace ResponseHandler
variable {η : Type} (h : ResponseHandler η)

def chunks : η → List Bytes → η × Bool
  | s, [] => (s,false)
  | s, chunk :: rest =>
    match h.onChunk s chunk with
    | (s',true) => (s',true)
    | (s',false) => chunks s' rest

def execute (s : η) : Exchange → η × Except TransportError Unit
  | .headless ending => (s,ending)
  | .answered head body ending =>
    match h.onHead s head with
    | (s',true) => (s',.error .aborted)
    | (s',false) =>
      match h.chunks s' body with
      | (s'',true) => (s'',.error .aborted)
      | (s'',false) => (s'',ending)

end ResponseHandler

inductive Closing where
  | closed
  | timedOut
  | failed (error : String)
  deriving DecidableEq

def streamChunkBytes : Nat := 16*1024
def responseHeadBytesMax : Nat := 32*1024
def chunkSizeLineBytesMax : Nat := 34

/-- What each read of the socket will still bring, and how it stops then. A read
brings something and fits the buffer. -/
structure Conn where
  reads : List Bytes
  closing : Closing
  windowed : ∀ read ∈ reads, read ≠ [] ∧ read.length ≤ streamChunkBytes

def held (reads : List Bytes) : Nat := (reads.map List.length).sum

def leave (rest : Bytes) (reads : List Bytes) : List Bytes :=
  if rest = [] then reads else rest :: reads

@[simp] theorem held_nil : held [] = 0 := rfl

@[simp] theorem held_cons (read : Bytes) (reads : List Bytes) :
    held (read :: reads) = read.length+held reads := rfl

theorem held_eq (reads : List Bytes) : held reads = reads.flatten.length := by
  simp [held,length_flatten]

@[simp] theorem held_leave (rest : Bytes) (reads : List Bytes) :
    held (leave rest reads) = rest.length+held reads := by
  unfold leave
  split_ifs with h <;> simp [h]

section
variable (timeout_ms : Nat) (closing : Closing)

def atEnd (context : String) : Except TransportError Unit :=
  match closing with
  | .closed => .ok ()
  | .timedOut => .error (.timeout timeout_ms)
  | .failed error => .error (.io s!"{context}: {error}")

def streamExact : Nat → List Bytes → List Bytes × Except TransportError (List Bytes)
  | 0, reads => ([],.ok reads)
  | remaining+1, [] => ([],(atEnd timeout_ms closing "read body").bind fun _ =>
      .error (.protocol s!"body ended {remaining+1} bytes early"))
  | remaining+1, read :: reads =>
    if read.length ≤ remaining+1 then
      let rest := streamExact (remaining+1-read.length) reads
      (read :: rest.1,rest.2)
    else ([read.take (remaining+1)],.ok (leave (read.drop (remaining+1)) reads))

def streamToClose (reads : List Bytes) : List Bytes × Except TransportError Unit :=
  (reads,atEnd timeout_ms closing "read body")

def readLine : Bytes → List Bytes → Except TransportError (Bytes × List Bytes)
  | line, [] => (atEnd timeout_ms closing "read response").map fun _ => (line,[])
  | line, read :: reads =>
    match splitOnce 10 read with
    | some (before,after) => .ok (line ++ before ++ [10],leave after reads)
    | none => readLine (line ++ read) reads

def isLineEnd (c : Char) : Bool := c = '\n' || c = '\r'

def readCrlfLine (reads : List Bytes) : Except TransportError (List Char × List Bytes) :=
  match readLine timeout_ms closing [] reads with
  | .error e => .error e
  | .ok (line,rest) =>
    match String.fromUTF8? ⟨line.toArray⟩ with
    | none => .error (.io "read response: stream did not contain valid UTF-8")
    | some text =>
      if line = [] then
        .error (.protocol "connection closed before the response head completed")
      else if responseHeadBytesMax < line.length then
        .error (.protocol s!"head line exceeds {responseHeadBytesMax} bytes")
      else .ok ((text.toList.reverse.dropWhile isLineEnd).reverse,rest)

variable {timeout_ms closing}

theorem readLine_held {line line' : Bytes} {reads rest : List Bytes}
    (h : readLine timeout_ms closing line reads = .ok (line',rest)) :
    line'.length+held rest = line.length+held reads := by
  induction reads generalizing line with
  | nil =>
    rw [readLine] at h
    cases closing <;> cases h
    rfl
  | cons read reads ih =>
    rw [readLine] at h
    split at h
    · rename_i before after hsplit
      cases h
      have hread := congrArg List.length (splitOnce_eq_some hsplit).1
      simp only [length_append,length_cons,length_nil,held_leave,held_cons] at hread ⊢
      omega
    · rw [ih h,length_append,held_cons]
      omega

theorem readCrlfLine_held {reads rest : List Bytes} {line : List Char}
    (h : readCrlfLine timeout_ms closing reads = .ok (line,rest)) : held rest < held reads := by
  rw [readCrlfLine] at h
  split at h
  · cases h
  · rename_i line' rest' hline
    have hheld := readLine_held hline
    split at h
    · cases h
    · split_ifs at h with hempty hlong
      cases h
      have := length_pos_iff.mpr hempty
      simp only [length_nil] at hheld
      omega

theorem streamExact_held {remaining : Nat} {reads rest chunks : List Bytes}
    (h : streamExact timeout_ms closing remaining reads = (chunks,.ok rest)) :
    remaining+held rest = held reads ∧ chunks.flatten = reads.flatten.take remaining := by
  induction reads generalizing remaining chunks with
  | nil =>
    cases remaining with
    | zero => cases h; simp
    | succ remaining => cases closing <;> cases h
  | cons read reads ih =>
    cases remaining with
    | zero => cases h; simp
    | succ remaining =>
      rw [streamExact] at h
      split_ifs at h with hle
      · simp only [Prod.mk.injEq] at h
        obtain ⟨hheld,hchunks⟩ := ih (Prod.ext rfl h.2)
        rw [← h.1,flatten_cons,flatten_cons,hchunks,held_cons,take_append]
        exact ⟨by omega,by rw [take_of_length_le hle]⟩
      · cases h
        simp only [held_leave,length_drop,held_cons,flatten_cons,flatten_nil,
          append_nil]
        exact ⟨by omega,(take_append_of_le_length (by omega)).symm⟩

variable (timeout_ms closing)

def streamTrailer (reads : List Bytes) : Except TransportError Unit :=
  match _h : readCrlfLine timeout_ms closing reads with
  | .error e => .error e
  | .ok (line,rest) => if line = [] then .ok () else streamTrailer rest
termination_by held reads
decreasing_by exact readCrlfLine_held _h

def sizeText (size_line : List Char) : List Char := trim (size_line.takeWhile (· ≠ ';'))

def chunkSize (size_line : List Char) : Except TransportError Nat :=
  if chunkSizeLineBytesMax < (String.ofList size_line).utf8ByteSize then
    .error (.protocol "chunk size line exceeds the cap")
  else
    match fromStrRadix 16 u64Max (sizeText size_line) with
    | none =>
      .error (.protocol s!"chunk size did not parse: {(String.ofList (sizeText size_line)).quote}")
    | some size => .ok size

def streamChunked (reads : List Bytes) : List Bytes × Except TransportError Unit :=
  match _hline : readCrlfLine timeout_ms closing reads with
  | .error e => ([],.error e)
  | .ok (size_line,body) =>
    match chunkSize size_line with
    | .error e => ([],.error e)
    | .ok size =>
      if size = 0 then ([],streamTrailer timeout_ms closing body)
      else
        match _hexact : streamExact timeout_ms closing size body with
        | (chunks,.error e) => (chunks,.error e)
        | (chunks,.ok behind) =>
          match _hend : readCrlfLine timeout_ms closing behind with
          | .error e => (chunks,.error e)
          | .ok (terminator,rest) =>
            if terminator ≠ [] then (chunks,.error (.protocol "chunk data not followed by CRLF"))
            else
              let more := streamChunked rest
              (chunks ++ more.1,more.2)
termination_by held reads
decreasing_by
  have h1 := readCrlfLine_held _hline
  have h2 := (streamExact_held _hexact).1
  have h3 := readCrlfLine_held _hend
  omega

end

def eqIgnoreAsciiCase (a b : String) : Bool := a.toLower = b.toLower

def streamBody (timeout_ms : Nat) (head : HttpHead) (conn : Conn) :
    List Bytes × Except TransportError Unit :=
  if (head.header "transfer-encoding").any fun value => eqIgnoreAsciiCase value "chunked" then
    streamChunked timeout_ms conn.closing conn.reads
  else
    match head.header "content-length" with
    | some length_text =>
      match fromStrRadix 10 u64Max length_text.toList with
      | none => ([],.error (.protocol s!"content-length did not parse: {length_text.quote}"))
      | some length =>
        let body := streamExact timeout_ms conn.closing length conn.reads
        (body.1,body.2.map fun _ => ())
    | none => streamToClose timeout_ms conn.closing conn.reads

section
variable {timeout_ms : Nat} {closing : Closing}

theorem streamExact_ne_aborted (remaining : Nat) (reads : List Bytes) :
    (streamExact timeout_ms closing remaining reads).2 ≠ .error .aborted := by
  induction reads generalizing remaining with
  | nil =>
    cases remaining with
    | zero => simp [streamExact]
    | succ remaining => cases closing <;> simp [streamExact,atEnd,Except.bind]
  | cons read reads ih =>
    cases remaining with
    | zero => simp [streamExact]
    | succ remaining =>
      rw [streamExact]
      split_ifs
      · exact ih _
      · simp

theorem streamExact_ok_iff (remaining : Nat) (reads : List Bytes) :
    (∃ rest, (streamExact timeout_ms closing remaining reads).2 = .ok rest) ↔
      remaining ≤ held reads := by
  induction reads generalizing remaining with
  | nil =>
    cases remaining with
    | zero => simp [streamExact]
    | succ remaining => cases closing <;> simp [streamExact,atEnd,Except.bind]
  | cons read reads ih =>
    cases remaining with
    | zero => simp [streamExact]
    | succ remaining =>
      rw [streamExact,held_cons]
      split_ifs with hle
      · simp only [ih]
        omega
      · simp only [Except.ok.injEq,exists_eq',true_iff]
        omega

variable (reads : List Bytes)

theorem readCrlfLine_ne_aborted : readCrlfLine timeout_ms closing reads ≠ .error .aborted := by
  have hline : ∀ line reads, readLine timeout_ms closing line reads ≠ .error .aborted := by
    intro line reads
    induction reads generalizing line with
    | nil => cases closing <;> simp [readLine,atEnd,Except.map]
    | cons read reads ih =>
      rw [readLine]
      split
      · simp
      · exact ih _
  rw [readCrlfLine]
  split
  · rename_i e he
    intro h
    cases h
    exact hline _ _ he
  · split
    · simp
    · split_ifs <;> simp

theorem streamTrailer_ne_aborted : streamTrailer timeout_ms closing reads ≠ .error .aborted := by
  fun_induction streamTrailer timeout_ms closing reads with
  | case1 reads e he =>
    intro h
    cases h
    exact readCrlfLine_ne_aborted reads he
  | case2 => simp
  | case3 reads line rest h hne ih => exact ih

theorem streamChunked_ne_aborted :
    (streamChunked timeout_ms closing reads).2 ≠ .error .aborted := by
  fun_induction streamChunked timeout_ms closing reads with
  | case1 reads e he =>
    intro h
    cases h
    exact readCrlfLine_ne_aborted reads he
  | case2 reads size_line body hline e he =>
    intro h
    cases h
    rw [chunkSize] at he
    split_ifs at he
    · cases he
    · split at he <;> cases he
  | case3 reads size_line body hline hsize => exact streamTrailer_ne_aborted body
  | case4 reads size_line body hline size hsize hne chunks e he =>
    intro h
    cases h
    exact streamExact_ne_aborted size body (by rw [he])
  | case5 reads size_line body hline size hsize hne chunks behind hexact e he =>
    intro h
    cases h
    exact readCrlfLine_ne_aborted behind he
  | case6 => simp
  | case7 reads size_line body hline size hsize hne chunks behind hexact terminator rest hend hblank
      more ih => exact ih

end

section
variable (timeout_ms : Nat) (closing : Closing)

inductive Trailer : List Bytes → Prop
  | blank {reads rest : List Bytes} :
    readCrlfLine timeout_ms closing reads = .ok ([],rest) → Trailer reads
  | field {reads rest : List Bytes} {line : List Char} :
    readCrlfLine timeout_ms closing reads = .ok (line,rest) → line ≠ [] → Trailer rest →
      Trailer reads

/-- Chunks as long as their size lines say, up to one of length zero and the
trailer. -/
inductive Chunks : List Bytes → Prop
  | last {reads rest : List Bytes} {size_line : List Char} :
    readCrlfLine timeout_ms closing reads = .ok (size_line,rest) → chunkSize size_line = .ok 0 →
      Trailer timeout_ms closing rest → Chunks reads
  | chunk {reads body behind rest chunks : List Bytes} {size_line : List Char} {size : Nat} :
    readCrlfLine timeout_ms closing reads = .ok (size_line,body) → chunkSize size_line = .ok size →
      size ≠ 0 → streamExact timeout_ms closing size body = (chunks,.ok behind) →
      readCrlfLine timeout_ms closing behind = .ok ([],rest) → Chunks rest → Chunks reads

variable {timeout_ms closing}

theorem streamTrailer_line {reads rest : List Bytes} {line : List Char}
    (h : readCrlfLine timeout_ms closing reads = .ok (line,rest)) :
    streamTrailer timeout_ms closing reads =
      if line = [] then .ok () else streamTrailer timeout_ms closing rest := by
  rw [streamTrailer]
  split
  · rename_i he
    rw [h] at he
    cases he
  · rename_i hok
    rw [h] at hok
    cases hok
    rfl

variable {size_line : List Char}

theorem streamChunked_last {reads rest : List Bytes}
    (hline : readCrlfLine timeout_ms closing reads = .ok (size_line,rest))
    (hsize : chunkSize size_line = .ok 0) :
    streamChunked timeout_ms closing reads = ([],streamTrailer timeout_ms closing rest) := by
  rw [streamChunked]
  split
  · rename_i he
    rw [hline] at he
    cases he
  · rename_i hok
    rw [hline] at hok
    cases hok
    simp only [hsize,if_true]

theorem streamChunked_chunk {reads body behind rest chunks : List Bytes}
    {size : Nat} (hline : readCrlfLine timeout_ms closing reads = .ok (size_line,body))
    (hsize : chunkSize size_line = .ok size) (hne : size ≠ 0)
    (hexact : streamExact timeout_ms closing size body = (chunks,.ok behind))
    (hend : readCrlfLine timeout_ms closing behind = .ok ([],rest)) :
    streamChunked timeout_ms closing reads =
      (chunks ++ (streamChunked timeout_ms closing rest).1,
        (streamChunked timeout_ms closing rest).2) := by
  rw [streamChunked]
  split
  · rename_i he
    rw [hline] at he
    cases he
  · rename_i hok
    rw [hline] at hok
    cases hok
    simp only [hsize,hne,if_false]
    split
    · rename_i he
      rw [hexact] at he
      cases he
    · rename_i hok
      rw [hexact] at hok
      cases hok
      split
      · rename_i he
        rw [hend] at he
        cases he
      · rename_i hok
        rw [hend] at hok
        cases hok
        rfl

theorem streamTrailer_ok_iff (reads : List Bytes) :
    streamTrailer timeout_ms closing reads = .ok () ↔ Trailer timeout_ms closing reads := by
  constructor
  · intro h
    fun_induction streamTrailer timeout_ms closing reads with
    | case1 => cases h
    | case2 reads rest hline => exact .blank hline
    | case3 reads line rest hline hne ih => exact .field hline hne (ih h)
  · intro h
    induction h with
    | blank hline => rw [streamTrailer_line hline,if_pos rfl]
    | field hline hne _ ih => rw [streamTrailer_line hline,if_neg hne,ih]

theorem streamChunked_ok_iff (reads : List Bytes) :
    (streamChunked timeout_ms closing reads).2 = .ok () ↔ Chunks timeout_ms closing reads := by
  constructor
  · intro h
    fun_induction streamChunked timeout_ms closing reads with
    | case1 => cases h
    | case2 => cases h
    | case3 reads size_line body hline hsize =>
      exact .last hline hsize ((streamTrailer_ok_iff body).mp h)
    | case4 => cases h
    | case5 => cases h
    | case6 => cases h
    | case7 reads size_line body hline size hsize hne chunks behind hexact terminator rest hend
        hblank more ih =>
      rw [not_not] at hblank
      exact .chunk hline hsize hne hexact (hblank ▸ hend) (ih h)
  · intro h
    induction h with
    | last hline hsize htrailer =>
      rw [streamChunked_last hline hsize]
      exact (streamTrailer_ok_iff _).mpr htrailer
    | chunk hline hsize hne hexact hend _ ih =>
      rw [streamChunked_chunk hline hsize hne hexact hend]
      exact ih

end

def Conn.Framed (timeout_ms : Nat) (head : HttpHead) (conn : Conn) : Prop :=
  if (head.header "transfer-encoding").any fun value => eqIgnoreAsciiCase value "chunked" then
    Chunks timeout_ms conn.closing conn.reads
  else
    match head.header "content-length" with
    | some length_text =>
      ∃ length, fromStrRadix 10 u64Max length_text.toList = some length ∧ length ≤ held conn.reads
    | none => conn.closing = .closed

def Ended (ending : Except TransportError Unit) : Prop :=
  ending = .ok () ∨ ending = .error .aborted

theorem streamBody_ended_iff (timeout_ms : Nat) (head : HttpHead) (conn : Conn) :
    Ended (streamBody timeout_ms head conn).2 ↔ conn.Framed timeout_ms head := by
  rw [Ended,streamBody,Conn.Framed]
  split_ifs with hchunked
  · rw [or_iff_left (streamChunked_ne_aborted _),streamChunked_ok_iff]
  · cases head.header "content-length" with
    | some length_text =>
      cases hlength : fromStrRadix 10 u64Max length_text.toList with
      | none => simp [hlength]
      | some length =>
        have hexact := @streamExact_ok_iff timeout_ms conn.closing length conn.reads
        have hpeer := @streamExact_ne_aborted timeout_ms conn.closing length conn.reads
        simp only [hlength,Option.some.injEq,exists_eq_left',← hexact]
        cases hbody : (streamExact timeout_ms conn.closing length conn.reads).2 with
        | error e =>
          rw [hbody] at hpeer
          simpa [Except.map] using hpeer
        | ok rest => simp [Except.map]
    | none => cases conn.closing <;> simp [streamToClose,atEnd]

end ProjectOS.Gateway
