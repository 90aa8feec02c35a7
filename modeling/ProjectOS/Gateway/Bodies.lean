import ProjectOS.Gateway.Chunked

/-! How many bytes of a body reach a handler, by transport and by framing. -/

namespace ProjectOS.Gateway
open Lib List

def responseBodyBytesDefault : Nat := 64*1024*1024

def HttpRequestPlan.budget (plan : HttpRequestPlan) : Nat :=
  plan.response_bytes_max.getD responseBodyBytesDefault

namespace TlsHttpTransport

def streamBody (timeout_ms : Nat) (closing : Closing) (bytes_max : Nat) :
    Nat → List Bytes → List Bytes × Except TransportError Unit
  | _, [] => ([],atEnd timeout_ms closing "read response body")
  | streamed, read :: reads =>
    if bytes_max < satAdd64 streamed read.length then
      ([],.error (.protocol s!"response body exceeds {bytes_max} bytes"))
    else
      let rest := streamBody timeout_ms closing bytes_max (satAdd64 streamed read.length) reads
      (read :: rest.1,rest.2)

section
variable {timeout_ms : Nat} {closing : Closing} {bytes_max : Nat}

theorem streamBody_le {streamed : Nat} (h : streamed ≤ bytes_max) (hcap : bytes_max < u64Max)
    (reads : List Bytes) :
    streamed+held (streamBody timeout_ms closing bytes_max streamed reads).1 ≤ bytes_max := by
  induction reads generalizing streamed with
  | nil => simpa [streamBody] using h
  | cons read reads ih =>
    rw [streamBody]
    split_ifs with hover
    · simpa using h
    · have hsum : satAdd64 streamed read.length = streamed+read.length := by
        simp only [satAdd64] at hover ⊢
        omega
      have hrest := ih (Nat.not_lt.mp hover)
      rw [hsum] at hrest
      simp only [held_cons,hsum]
      omega

theorem streamBody_refuses {streamed : Nat} (h : streamed ≤ bytes_max) (hcap : bytes_max < u64Max)
    {reads : List Bytes} (hlong : bytes_max < streamed+held reads) :
    ∃ e, (streamBody timeout_ms closing bytes_max streamed reads).2 = .error e := by
  induction reads generalizing streamed with
  | nil => simp only [held_nil] at hlong; omega
  | cons read reads ih =>
    rw [streamBody]
    split_ifs with hover
    · exact ⟨_,rfl⟩
    · have hsum : satAdd64 streamed read.length = streamed+read.length := by
        simp only [satAdd64] at hover ⊢
        omega
      refine ih (Nat.not_lt.mp hover) ?_
      rw [held_cons] at hlong
      omega

theorem streamBody_prefix (streamed : Nat) (reads : List Bytes) :
    (streamBody timeout_ms closing bytes_max streamed reads).1 <+: reads := by
  induction reads generalizing streamed with
  | nil => exact prefix_rfl
  | cons read reads ih =>
    rw [streamBody]
    split_ifs
    · exact List.nil_prefix
    · exact (prefix_append_right_inj [read]).mpr (ih _)

theorem streamBody_uncapped (hcap : u64Max ≤ bytes_max) (streamed : Nat) (reads : List Bytes) :
    (streamBody timeout_ms closing bytes_max streamed reads).1 = reads := by
  induction reads generalizing streamed with
  | nil => rfl
  | cons read reads ih =>
    rw [streamBody,if_neg (by simp only [satAdd64]; omega)]
    simp only [ih]

end
end TlsHttpTransport

def Socket.respond (plan : HttpRequestPlan) (head : HttpHead) (conn : Conn) : Socket → Exchange
  | .deviceLocal =>
    .answered head (streamBody plan.timeout_ms head conn).1 (streamBody plan.timeout_ms head conn).2
  | .remote =>
    let body := TlsHttpTransport.streamBody plan.timeout_ms conn.closing plan.budget 0 conn.reads
    .answered head body.1 body.2

def lineAt (bytes : Bytes) : Option (List Char × Bytes) :=
  match splitOnce 10 bytes with
  | none => none
  | some (before,after) =>
    match decodeUtf8 (before ++ [10]) with
    | none => none
    | some text =>
      if responseHeadBytesMax < before.length+1 then none
      else some ((text.reverse.dropWhile isLineEnd).reverse,after)

theorem lineAt_length {bytes after : Bytes} {line : List Char} (h : lineAt bytes = some (line,after)) :
    after.length < bytes.length := by
  unfold lineAt at h
  split at h
  · cases h
  · rename_i before behind hsplit
    rw [(splitOnce_eq_some hsplit).1]
    split at h
    · cases h
    · split_ifs at h
      cases h
      simp only [length_append,length_cons]
      omega

def behindBlank (bytes : Bytes) : Option Bytes :=
  (lineAt bytes).bind fun p => if p.1 = [] then some p.2 else none

theorem behindBlank_eq_some {bytes after : Bytes} :
    behindBlank bytes = some after ↔ lineAt bytes = some ([],after) := by
  simp [behindBlank,Option.bind_eq_some_iff]

def chunkedPayload (bytes : Bytes) : Bytes :=
  match _hline : lineAt bytes with
  | none => []
  | some (size_line,body) =>
    match chunkSize size_line with
    | .error _ => []
    | .ok size =>
      if size = 0 then []
      else
        body.take size ++
          match _hend : behindBlank (body.drop size) with
          | none => []
          | some rest => chunkedPayload rest
termination_by bytes.length
decreasing_by
  have h1 := lineAt_length _hline
  have h2 := lineAt_length (behindBlank_eq_some.mp _hend)
  rw [length_drop] at h2
  omega

def bodyBytes (head : HttpHead) (stream : Bytes) : Bytes :=
  if (head.header "transfer-encoding").any fun value => eqIgnoreAsciiCase value "chunked" then
    chunkedPayload stream
  else
    match head.header "content-length" with
    | some length_text =>
      match fromStrRadix 10 u64Max length_text.toList with
      | none => []
      | some length => stream.take length
    | none => stream

def Socket.bodyBytes (head : HttpHead) (conn : Conn) : Socket → Bytes
  | .deviceLocal => ProjectOS.Gateway.bodyBytes head conn.reads.flatten
  | .remote => conn.reads.flatten

section
variable {timeout_ms : Nat} {closing : Closing}

theorem lineAt_of_ok {reads rest : List Bytes} {line : List Char}
    (h : readCrlfLine timeout_ms closing reads = .ok (line,rest)) :
    lineAt reads.flatten = some (line,rest.flatten) ∨ lineAt reads.flatten = none ∧ rest = [] := by
  cases hsplit : splitOnce 10 reads.flatten with
  | none =>
    have hfeed := splitOnce_eq_none.mp hsplit
    exact Or.inr ⟨by rw [lineAt,hsplit],readCrlfLine_end hfeed h⟩
  | some parts =>
    obtain ⟨before,after⟩ := parts
    obtain ⟨hflat,hfeed⟩ := splitOnce_eq_some hsplit
    obtain ⟨rest',hline,hrest⟩ := @readLine_feed timeout_ms closing [] _ _ _ hflat hfeed
    rw [readCrlfLine,hline,nil_append] at h
    cases htext : String.fromUTF8? ⟨(before ++ [10]).toArray⟩ with
    | none => simp [htext] at h
    | some text =>
      have hdecode : decodeUtf8 (before ++ [10]) = some text.toList := by rw [decodeUtf8,htext]; rfl
      have hlen : (before ++ [10]).length = before.length+1 := by simp
      simp only [htext,hlen] at h
      split_ifs at h with hempty hlong
      cases h
      left
      rw [lineAt,hsplit]
      simp only [hdecode,if_neg hlong,hrest]

theorem lineAt_of_error {reads : List Bytes} {e : TransportError}
    (h : readCrlfLine timeout_ms closing reads = .error e) : lineAt reads.flatten = none := by
  cases hsplit : splitOnce 10 reads.flatten with
  | none => rw [lineAt,hsplit]
  | some parts =>
    obtain ⟨before,after⟩ := parts
    obtain ⟨hflat,hfeed⟩ := splitOnce_eq_some hsplit
    obtain ⟨rest',hline,-⟩ := @readLine_feed timeout_ms closing [] _ _ _ hflat hfeed
    rw [readCrlfLine,hline,nil_append] at h
    rw [lineAt,hsplit]
    cases htext : String.fromUTF8? ⟨(before ++ [10]).toArray⟩ with
    | none => simp [decodeUtf8,htext]
    | some text =>
      have hdecode : decodeUtf8 (before ++ [10]) = some text.toList := by rw [decodeUtf8,htext]; rfl
      have hlen : (before ++ [10]).length = before.length+1 := by simp
      have hne : before ++ [10] ≠ [] := by simp
      simp only [htext,hlen,hne,if_false] at h
      split_ifs at h with hlong
      simp only [hdecode,if_pos hlong]

theorem streamExact_flatten (remaining : Nat) (reads : List Bytes) :
    (streamExact timeout_ms closing remaining reads).1.flatten = reads.flatten.take remaining := by
  induction reads generalizing remaining with
  | nil => cases remaining <;> simp [streamExact]
  | cons read reads ih =>
    cases remaining with
    | zero => simp [streamExact]
    | succ remaining =>
      rw [streamExact,flatten_cons]
      split_ifs with hle
      · rw [flatten_cons,ih,take_append,take_of_length_le hle]
      · rw [flatten_singleton,take_append_of_le_length (by omega)]

variable {bytes body : Bytes}

theorem chunkedPayload_none (h : lineAt bytes = none) : chunkedPayload bytes = [] := by
  rw [chunkedPayload]
  split
  · rfl
  · rename_i hline
    rw [h] at hline
    cases hline

theorem chunkedPayload_nil : chunkedPayload [] = [] := chunkedPayload_none rfl

variable {size_line : List Char}

section
variable (h : lineAt bytes = some (size_line,body))
include h

theorem chunkedPayload_stop
    (hstop : ∀ size, chunkSize size_line = .ok size → size = 0) : chunkedPayload bytes = [] := by
  rw [chunkedPayload]
  split
  · rfl
  · rename_i hline
    rw [h] at hline
    cases hline
    split
    · rfl
    · rename_i size hsize
      rw [if_pos (hstop size hsize)]

theorem chunkedPayload_chunk {rest : Bytes} {size : Nat} (hsize : chunkSize size_line = .ok size)
    (hne : size ≠ 0) (hend : lineAt (body.drop size) = some ([],rest)) :
    chunkedPayload bytes = body.take size ++ chunkedPayload rest := by
  rw [chunkedPayload]
  split
  · rename_i hline
    rw [h] at hline
    cases hline
  · rename_i hline
    rw [h] at hline
    cases hline
    simp only [hsize,hne,if_false]
    split
    · rename_i hnone
      rw [behindBlank_eq_some.mpr hend] at hnone
      cases hnone
    · rename_i hsome
      rw [behindBlank_eq_some.mpr hend] at hsome
      cases hsome
      rfl

theorem chunkedPayload_break {size : Nat} (hsize : chunkSize size_line = .ok size)
    (hne : size ≠ 0) (hend : ∀ rest, lineAt (body.drop size) ≠ some ([],rest)) :
    chunkedPayload bytes = body.take size := by
  rw [chunkedPayload]
  split
  · rename_i hline
    rw [h] at hline
    cases hline
  · rename_i hline
    rw [h] at hline
    cases hline
    simp only [hsize,hne,if_false]
    split
    · exact append_nil _
    · rename_i hsome
      exact absurd (behindBlank_eq_some.mp hsome) (hend _)

end

theorem streamChunked_flatten (reads : List Bytes) :
    (streamChunked timeout_ms closing reads).1.flatten = chunkedPayload reads.flatten := by
  fun_induction streamChunked timeout_ms closing reads with
  | case1 reads e he => rw [chunkedPayload_none (lineAt_of_error he)]; rfl
  | case2 reads size_line body hline e he =>
    rcases lineAt_of_ok hline with hat | ⟨hat,-⟩
    · rw [chunkedPayload_stop hat (fun size hsize => by rw [he] at hsize; cases hsize)]
      rfl
    · rw [chunkedPayload_none hat]
      rfl
  | case3 reads size_line body hline hsize =>
    rcases lineAt_of_ok hline with hat | ⟨hat,-⟩
    · rw [chunkedPayload_stop hat (fun size hs => by rw [hsize] at hs; exact (Except.ok.inj hs).symm)]
      rfl
    · rw [chunkedPayload_none hat]
      rfl
  | case4 reads size_line body hline size hsize hne chunks e he =>
    have hchunks := @streamExact_flatten timeout_ms closing size body
    rw [he] at hchunks
    rcases lineAt_of_ok hline with hat | ⟨hat,rfl⟩
    · have hshort : ¬ size ≤ held body := by
        rw [← @streamExact_ok_iff timeout_ms closing,he]
        rintro ⟨rest,hrest⟩
        cases hrest
      rw [held_eq] at hshort
      have hdrop : body.flatten.drop size = [] := drop_eq_nil_of_le (by omega)
      rw [chunkedPayload_break hat hsize hne (by rw [hdrop]; rintro rest ⟨⟩)]
      exact hchunks
    · rw [chunkedPayload_none hat]
      simpa using hchunks
  | case5 reads size_line body hline size hsize hne chunks behind hexact e he =>
    have hchunks := (streamExact_held hexact).2
    rcases lineAt_of_ok hline with hat | ⟨hat,rfl⟩
    · have hnone := lineAt_of_error he
      rw [streamExact_rest hexact] at hnone
      rw [chunkedPayload_break hat hsize hne (by rw [hnone]; rintro rest ⟨⟩)]
      exact hchunks
    · rw [chunkedPayload_none hat]
      simpa using hchunks
  | case6 reads size_line body hline size hsize hne chunks behind hexact terminator rest hend hterm =>
    have hchunks := (streamExact_held hexact).2
    rcases lineAt_of_ok hline with hat | ⟨hat,rfl⟩
    · have hblank : ∀ rest', lineAt (body.flatten.drop size) ≠ some ([],rest') := by
        intro rest' hrest'
        rw [← streamExact_rest hexact] at hrest'
        rcases lineAt_of_ok hend with hsome | ⟨hnone,-⟩
        · rw [hrest'] at hsome
          cases hsome
          exact hterm rfl
        · rw [hrest'] at hnone
          cases hnone
      rw [chunkedPayload_break hat hsize hne hblank]
      exact hchunks
    · rw [chunkedPayload_none hat]
      simpa using hchunks
  | case7 reads size_line body hline size hsize hne chunks behind hexact terminator rest hend hblank
      more ih =>
    rw [not_not] at hblank
    subst hblank
    have hchunks := (streamExact_held hexact).2
    rw [flatten_append,ih,hchunks]
    rcases lineAt_of_ok hline with hat | ⟨hat,rfl⟩
    · rcases lineAt_of_ok hend with hsome | ⟨hnone,rfl⟩
      · rw [streamExact_rest hexact] at hsome
        rw [chunkedPayload_chunk hat hsize hne hsome]
      · rw [streamExact_rest hexact] at hnone
        rw [chunkedPayload_break hat hsize hne (by rw [hnone]; rintro rest ⟨⟩),flatten_nil,
          chunkedPayload_nil,append_nil]
    · have hheld := (streamExact_held hexact).1
      simp only [held_nil] at hheld
      omega

end

theorem held_front {front reads : List Bytes} (h : front <+: reads) : held front ≤ held reads := by
  obtain ⟨rest,rfl⟩ := h
  simp [held]

namespace ResponseHandler
variable {η : Type} (h : ResponseHandler η)

def handedChunks : η → List Bytes → List Bytes
  | _, [] => []
  | s, chunk :: rest =>
    match h.onChunk s chunk with
    | (_,true) => [chunk]
    | (s',false) => chunk :: handedChunks s' rest

def handed (s : η) : Exchange → List Bytes
  | .headless _ => []
  | .answered head body _ =>
    match h.onHead s head with
    | (_,true) => []
    | (s',false) => h.handedChunks s' body

theorem handedChunks_prefix (s : η) (body : List Bytes) : h.handedChunks s body <+: body := by
  induction body generalizing s with
  | nil => exact prefix_rfl
  | cons chunk rest ih =>
    rw [handedChunks]
    split
    · exact (prefix_append_right_inj [chunk]).mpr List.nil_prefix
    · exact (prefix_append_right_inj [chunk]).mpr (ih _)

theorem held_handed_le (s : η) (head : HttpHead) (body : List Bytes)
    (ending : Except TransportError Unit) : held (h.handed s (.answered head body ending)) ≤ held body := by
  rw [handed]
  split
  · exact Nat.zero_le _
  · exact held_front (h.handedChunks_prefix _ body)

theorem execute_error (s : η) (head : HttpHead) (body : List Bytes) (e : TransportError) :
    ∃ e', (h.execute s (.answered head body (.error e))).2 = .error e' := by
  rw [execute]
  split
  · exact ⟨_,rfl⟩
  · split
    · exact ⟨_,rfl⟩
    · exact ⟨e,rfl⟩

def taking : ResponseHandler Unit := ⟨fun _ _ => ((),false),fun _ _ => ((),false)⟩

theorem taking_handedChunks (body : List Bytes) : taking.handedChunks () body = body := by
  induction body with
  | nil => rfl
  | cons chunk rest ih => exact congrArg (chunk :: ·) ih

end ResponseHandler

def KeepsBudget (plan : HttpRequestPlan) (head : HttpHead) (conn : Conn) (socket : Socket) : Prop :=
  ∀ (η : Type) (h : ResponseHandler η) (s : η),
    held (h.handed s (socket.respond plan head conn)) ≤ plan.budget ∧
    (plan.budget < (socket.bodyBytes head conn).length →
      ∃ e, (h.execute s (socket.respond plan head conn)).2 = .error e)

theorem streamBody_flatten (timeout_ms : Nat) (head : HttpHead) (conn : Conn) :
    (streamBody timeout_ms head conn).1.flatten = bodyBytes head conn.reads.flatten := by
  rw [streamBody,bodyBytes]
  split_ifs
  · exact streamChunked_flatten conn.reads
  · cases head.header "content-length" with
    | some length_text =>
      cases hlength : fromStrRadix 10 u64Max length_text.toList with
      | none => simp [hlength]
      | some length => simp only [hlength,streamExact_flatten]
    | none => rfl

theorem remote_keeps {plan : HttpRequestPlan} (hcap : plan.budget < u64Max) (head : HttpHead)
    (conn : Conn) : KeepsBudget plan head conn .remote := by
  intro η h s
  have hbody := @TlsHttpTransport.streamBody_le plan.timeout_ms conn.closing plan.budget 0
    (Nat.zero_le _) hcap conn.reads
  rw [Nat.zero_add] at hbody
  refine ⟨le_trans (h.held_handed_le s _ _ _) hbody,fun hlong => ?_⟩
  have hbeyond : plan.budget < 0+held conn.reads := by
    rw [Nat.zero_add,held_eq]
    exact hlong
  obtain ⟨e,he⟩ := @TlsHttpTransport.streamBody_refuses plan.timeout_ms conn.closing plan.budget 0
    (Nat.zero_le _) hcap conn.reads hbeyond
  simp only [Socket.respond,he]
  exact h.execute_error s head _ e

variable {socket : Socket}

theorem short_keeps {plan : HttpRequestPlan} {head : HttpHead} {conn : Conn}
    (h : (socket.bodyBytes head conn).length ≤ plan.budget) : KeepsBudget plan head conn socket := by
  intro η handler s
  refine ⟨?_,fun hlong => absurd h (Nat.not_le.mpr hlong)⟩
  cases socket with
  | deviceLocal =>
    refine le_trans (handler.held_handed_le s _ _ _) ?_
    rw [held_eq,streamBody_flatten]
    exact h
  | remote =>
    refine le_trans (handler.held_handed_le s _ _ _) ?_
    refine le_trans (held_front (TlsHttpTransport.streamBody_prefix 0 conn.reads)) ?_
    rw [held_eq]
    exact h

theorem handed_taking {plan : HttpRequestPlan}
    (h : socket = .remote → u64Max ≤ plan.budget) (head : HttpHead) (conn : Conn) :
    held (ResponseHandler.taking.handed () (socket.respond plan head conn)) =
      (socket.bodyBytes head conn).length := by
  cases socket with
  | deviceLocal =>
    rw [Socket.respond,ResponseHandler.handed]
    simp only [ResponseHandler.taking,Socket.bodyBytes]
    rw [← streamBody_flatten plan.timeout_ms,← held_eq]
    exact congrArg held (ResponseHandler.taking_handedChunks _)
  | remote =>
    rw [Socket.respond,ResponseHandler.handed]
    simp only [TlsHttpTransport.streamBody_uncapped (h rfl),ResponseHandler.taking,Socket.bodyBytes]
    rw [← held_eq]
    exact congrArg held (ResponseHandler.taking_handedChunks _)

/-- The budget of a plan binds the TLS transport alone. -/
theorem keepsBudget_iff (plan : HttpRequestPlan) (head : HttpHead) (conn : Conn) (socket : Socket) :
    KeepsBudget plan head conn socket ↔
      socket = .remote ∧ plan.budget < u64Max ∨
        (socket.bodyBytes head conn).length ≤ plan.budget := by
  constructor
  · intro h
    by_cases hbound : socket = .remote ∧ plan.budget < u64Max
    · exact Or.inl hbound
    · have huncapped : socket = .remote → u64Max ≤ plan.budget := fun hsocket =>
        Nat.not_lt.mp fun hlt => hbound ⟨hsocket,hlt⟩
      have hhanded := (h Unit ResponseHandler.taking ()).1
      rw [handed_taking huncapped] at hhanded
      exact Or.inr hhanded
  · rintro (⟨rfl,hcap⟩ | hshort)
    · exact remote_keeps hcap head conn
    · exact short_keeps hshort

namespace BudgetDemo

def plan : HttpRequestPlan := ⟨.get,"http://127.0.0.1/",[],.empty,1000,some 1⟩

def twoBytes : Bytes := [65,66]

theorem twoBytes_fit : ∀ read ∈ [twoBytes], read ≠ [] ∧ read.length ≤ streamChunkBytes := by decide

end BudgetDemo

open BudgetDemo in
/-- The loopback transport hands on two bytes to a call that may stream one, and
reports nothing. -/
theorem loopback_exceeds :
    ¬ ∀ (plan : HttpRequestPlan) (head : HttpHead) (conn : Conn) (socket : Socket),
      KeepsBudget plan head conn socket := by
  intro h
  have hlong := (h plan ⟨200,[]⟩ ⟨[twoBytes],.closed,twoBytes_fit⟩ .deviceLocal Unit
    ResponseHandler.taking ()).1
  revert hlong
  decide

end ProjectOS.Gateway
