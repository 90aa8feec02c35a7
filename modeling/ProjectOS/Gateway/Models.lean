import ProjectOS.Gateway.Transport

/-! The model manager: an artifact is streamed to a temp file, verified against
the manifest and renamed into place. A pull that drops is resumed from what it
left. The disk takes whatever is written. -/

namespace ProjectOS.Gateway
open Lib

def downloadTimeoutMs : Nat := 10*60*1000

def redirectHopsMax : Nat := 3

structure ModelManifestEntry where
  name : String
  url : String
  blake3 : String
  bytes : Nat

inductive PullConsent where
  | given | withheld
  deriving DecidableEq

inductive ModelPullError where
  | consentRequired (name : String)
  | checksumMismatch (name expected_blake3 actual_blake3 : String)
  | sizeMismatch (name : String) (expected_bytes actual_bytes : Nat)
  | overrun (name : String) (expected_bytes : Nat)
  | alreadyPresent (path : String)
  | budgetExceeded (name : String) (bytes budget_bytes : Nat)
  | partialTooLong (name : String) (partial_bytes expected_bytes : Nat)
  | source (reason : String)
  | io (path reason : String)
  deriving DecidableEq

structure PullReport where
  name : String
  path : String
  bytes : Nat
  blake3 : String

structure HashingWriter where
  file : Bytes
  hasher : Bytes
  written : Nat
  limit : Nat
  head : Option HttpHead
  overrun : Bool
  resumed_from : Nat
  range_ignored : Bool
  redirect_to : Option String

namespace HashingWriter

def redirect (head : HttpHead) : Option String :=
  if 300 ≤ head.status ∧ head.status < 400 then head.header "location" else none

def onHead (w : HashingWriter) (head : HttpHead) : HashingWriter × Bool :=
  match redirect head with
  | some location => ({ w with redirect_to := some location, head := some head },true)
  | none =>
    -- the whole artifact in answer to a range is not appended to the prefix
    if 0 < w.resumed_from ∧ head.status = 200 then
      ({ w with range_ignored := true, head := some head },true)
    else ({ w with head := some head },false)

def onChunk (w : HashingWriter) (chunk : Bytes) : HashingWriter × Bool :=
  if w.head.all fun head => 300 ≤ head.status then (w,false)
  else if w.limit < satAdd64 w.written chunk.length then ({ w with overrun := true },true)
  else
    ({ w with
      file := w.file ++ chunk
      hasher := w.hasher ++ chunk
      written := w.written+chunk.length },false)

def handler : ResponseHandler HashingWriter := ⟨onHead,onChunk⟩

end HashingWriter

def resolveRedirect (current location : String) : Option String :=
  if (stripPrefix "https://" location.toList).isSome then some location
  else if (stripPrefix "/" location.toList).isNone ∨ (stripPrefix "//" location.toList).isSome then none
  else
    (stripPrefix "https://" current.toList).bind fun rest =>
      (splitOnce '/' rest).map fun p =>
        String.ofList ("https://".toList ++ p.1 ++ location.toList)

/-- The answers to a pull's requests in turn, and what a file brings and how reading
it fails. -/
structure PullSource where
  http : Nat → HttpRequestPlan → Exchange
  file : String → Except String (List Bytes × Option String)

section
variable (blake3 : Bytes → String) (entry : ModelManifestEntry) (temp_path : String)
  (source : PullSource)

def readPartial (temp : Option Bytes) : Except ModelPullError Bytes :=
  match temp with
  | none => .ok []
  | some content =>
    if entry.bytes < content.length then
      .error (.partialTooLong entry.name content.length entry.bytes)
    else .ok content

def resumed (content : Bytes) : Bytes :=
  if 0 < content.length ∧ content.length < entry.bytes then content else []

def openWriter (content : Bytes) : HashingWriter where
  file := resumed entry content
  hasher := resumed entry content
  written := (resumed entry content).length
  limit := entry.bytes
  head := none
  overrun := false
  resumed_from := (resumed entry content).length
  range_ignored := false
  redirect_to := none

def downloadPlan (url : String) (resumed_from : Nat) : HttpRequestPlan where
  method := .get
  url := url
  headers := ("accept","application/octet-stream") ::
    if 0 < resumed_from then [("range",s!"bytes={resumed_from}-")] else []
  body := .empty
  timeout_ms := downloadTimeoutMs
  response_bytes_max := some (satAdd64 entry.bytes 1)

/-- `toLower` folds ASCII letters only, which is what the hexadecimal digest of a
manifest has. -/
def verify (bytes : Nat) (hashed : Bytes) : Except ModelPullError (Nat × String) :=
  if bytes ≠ entry.bytes then .error (.sizeMismatch entry.name entry.bytes bytes)
  else if blake3 hashed ≠ entry.blake3.toLower then
    .error (.checksumMismatch entry.name entry.blake3.toLower (blake3 hashed))
  else .ok (bytes,blake3 hashed)

inductive Fetched where
  | failed (error : ModelPullError)
  | redirected (location : String)
  | ignoredRange
  | whole

def stopped (w : HashingWriter) : Except TransportError Unit → Option ModelPullError
  | .ok () => none
  | .error .aborted =>
    if w.range_ignored ∨ w.redirect_to.isSome then none
    else if w.overrun then some (.overrun entry.name entry.bytes)
    else some (.io temp_path "write aborted")
  | .error e => some (.source e.text)

def fetched (w : HashingWriter) (ending : Except TransportError Unit) : Fetched :=
  match stopped entry temp_path w ending with
  | some e => .failed e
  | none =>
    match w.head with
    | none => .failed (.source "source returned no response head")
    | some head =>
      match w.redirect_to with
      | some location => .redirected location
      | none =>
        if 300 ≤ head.status then .failed (.source s!"source answered HTTP {head.status}")
        else if w.range_ignored then .ignoredRange
        else .whole

structure Streamed where
  requests : List HttpRequestPlan
  temp : Option Bytes
  result : Except ModelPullError (Nat × String)

def Streamed.after (plan : HttpRequestPlan) (rest : Streamed) : Streamed :=
  { rest with requests := plan :: rest.requests }

def download (n hops restarts : Nat) (url : String) (temp : Option Bytes) : Streamed :=
  match readPartial entry temp with
  | .error e => ⟨[],temp,.error e⟩
  | .ok content =>
    let plan := downloadPlan entry url (resumed entry content).length
    let run := HashingWriter.handler.execute (openWriter entry content) (source.http n plan)
    match fetched entry temp_path run.1 run.2 with
    | .failed e => ⟨[plan],some run.1.file,.error e⟩
    | .redirected location =>
      if _h : redirectHopsMax < hops+1 then
        ⟨[plan],some run.1.file,
          .error (.source s!"artifact source redirected more than {redirectHopsMax} times")⟩
      else
        match resolveRedirect url location with
        | none =>
          ⟨[plan],some run.1.file,
            .error (.source s!"artifact source redirected to a non-https location: {location}")⟩
        | some next => (download (n+1) (hops+1) restarts next (some run.1.file)).after plan
    | .ignoredRange =>
      if _h : 1 < restarts+1 then
        ⟨[plan],some run.1.file,
          .error (.source "artifact source keeps ignoring Range; the pull cannot resume")⟩
      else (download (n+1) hops (restarts+1) url none).after plan
    | .whole => ⟨[plan],some run.1.file,verify blake3 entry run.1.written run.1.hasher⟩
termination_by (redirectHopsMax-hops)+(1-restarts)

def copyReads (file : Bytes) : List Bytes → Option String → Bytes × Except ModelPullError Unit
  | [], none => (file,.ok ())
  | [], some e => (file,.error (.source e))
  | read :: reads, failure =>
    if entry.bytes < satAdd64 file.length read.length then
      (file,.error (.overrun entry.name entry.bytes))
    else copyReads (file ++ read) reads failure

def copyFileSource (path : String) (temp : Option Bytes) : Option Bytes × Except ModelPullError Unit :=
  match source.file path with
  | .error e => (temp,.error (.source s!"{path}: {e}"))
  | .ok (reads,failure) =>
    let copied := copyReads entry [] reads failure
    (some copied.1,copied.2)

def streamToTemp (temp : Option Bytes) : Streamed :=
  match stripPrefix "file://" entry.url.toList with
  | some file_path =>
    match copyFileSource entry source (String.ofList file_path) temp with
    | (temp',.error e) => ⟨[],temp',.error e⟩
    | (temp',.ok ()) => ⟨[],temp',verify blake3 entry (temp'.getD []).length (temp'.getD [])⟩
  | none => download blake3 entry temp_path source 0 0 0 entry.url temp

end

def discardsPartial : ModelPullError → Bool
  | .source _
  | .io _ _ => false
  | _ => true

structure ModelDir where
  final : Option Bytes
  temp : Option Bytes

structure Pull where
  dir : ModelDir
  requests : List HttpRequestPlan
  result : Except ModelPullError PullReport

def pullModelWithBudget (blake3 : Bytes → String) (entry : ModelManifestEntry) (dest_dir : String)
    (consent : PullConsent) (source : PullSource) (budget_bytes : Nat) (dir : ModelDir) : Pull :=
  let final_path := s!"{dest_dir}/{entry.name}"
  let temp_path := s!"{dest_dir}/{entry.name}.pulling"
  if consent = .withheld then ⟨dir,[],.error (.consentRequired entry.name)⟩
  else if budget_bytes < entry.bytes then
    ⟨dir,[],.error (.budgetExceeded entry.name entry.bytes budget_bytes)⟩
  else if dir.final.isSome then ⟨dir,[],.error (.alreadyPresent final_path)⟩
  else
    let streamed := streamToTemp blake3 entry temp_path source dir.temp
    match streamed.result with
    | .ok (bytes,hash) =>
      ⟨⟨streamed.temp,none⟩,streamed.requests,.ok ⟨entry.name,final_path,bytes,hash⟩⟩
    | .error e =>
      ⟨⟨none,if discardsPartial e then none else streamed.temp⟩,streamed.requests,.error e⟩

end ProjectOS.Gateway
