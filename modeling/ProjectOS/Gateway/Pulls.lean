import ProjectOS.Gateway.Models

/-! What a sequence of model pulls comes to, whatever its transports answer and
whatever the temp file held. -/

namespace ProjectOS.Gateway
open Lib List

namespace ResponseHandler
variable {η : Type} {h : ResponseHandler η}

theorem execute_keeps {P : η → Prop} (hhead : ∀ s head, P s → P (h.onHead s head).1)
    (hchunk : ∀ s chunk, P s → P (h.onChunk s chunk).1) {s : η} (hs : P s) (exchange : Exchange) :
    P (h.execute s exchange).1 := by
  have hchunks : ∀ (body : List Bytes) s, P s → P (h.chunks s body).1 := by
    intro body
    induction body with
    | nil => exact fun s hs => hs
    | cons chunk rest ih =>
      intro s hs
      rw [chunks]
      have hnext := hchunk s chunk hs
      split
      · rename_i s' heq
        rwa [heq] at hnext
      · rename_i s' heq
        rw [heq] at hnext
        exact ih s' hnext
  cases exchange with
  | headless ending => exact hs
  | answered head body ending =>
    have hnext := hhead s head hs
    rw [execute]
    split
    · rename_i s' heq
      rwa [heq] at hnext
    · rename_i s' heq
      rw [heq] at hnext
      have hbody := hchunks body s' hnext
      split
      · rename_i s'' heq'
        rwa [heq'] at hbody
      · rename_i s'' heq'
        rwa [heq'] at hbody

end ResponseHandler

namespace HashingWriter

def Sound (w : HashingWriter) : Prop := w.hasher = w.file ∧ w.written = w.file.length

theorem onHead_sound (w : HashingWriter) (head : HttpHead) (h : w.Sound) : (w.onHead head).1.Sound := by
  rw [onHead]
  split
  · exact h
  · split_ifs <;> exact h

theorem onChunk_sound (w : HashingWriter) (chunk : Bytes) (h : w.Sound) :
    (w.onChunk chunk).1.Sound := by
  rw [onChunk]
  split_ifs
  · exact h
  · exact h
  · exact ⟨by simp [h.1],by simp [h.2]⟩

theorem execute_sound {w : HashingWriter} (h : w.Sound) (exchange : Exchange) :
    (handler.execute w exchange).1.Sound :=
  ResponseHandler.execute_keeps onHead_sound onChunk_sound h exchange

theorem openWriter_sound (entry : ModelManifestEntry) (content : Bytes) :
    (openWriter entry content).Sound := ⟨rfl,rfl⟩

end HashingWriter

section
variable {blake3 : Bytes → String} {entry : ModelManifestEntry} {temp_path : String}
  {source : PullSource}

def Verified (blake3 : Bytes → String) (entry : ModelManifestEntry) (content : Bytes) : Prop :=
  content.length = entry.bytes ∧ blake3 content = entry.blake3.toLower

variable {receipt : Nat × String} {hashed : Bytes}

theorem verify_ok_iff {bytes : Nat} :
    verify blake3 entry bytes hashed = .ok receipt ↔
      bytes = entry.bytes ∧ blake3 hashed = entry.blake3.toLower ∧ receipt = (bytes,blake3 hashed) := by
  unfold verify
  split_ifs with hbytes hhash
  · simp [hbytes]
  · simp [hhash]
  · rw [not_not] at hbytes hhash
    simp [hbytes,hhash,eq_comm]

variable (plan : HttpRequestPlan) (rest : Streamed)

@[simp] theorem after_requests :
    (rest.after plan).requests = plan :: rest.requests := rfl

theorem download_verified {n hops restarts : Nat} {url : String} {temp : Option Bytes}
    (h : (download blake3 entry temp_path source n hops restarts url temp).result = .ok receipt) :
    ∃ content, (download blake3 entry temp_path source n hops restarts url temp).temp =
      some content ∧ Verified blake3 entry content := by
  fun_induction download blake3 entry temp_path source n hops restarts url temp with
  | case1 => cases h
  | case2 => cases h
  | case3 => cases h
  | case4 => cases h
  | case5 n hops restarts url temp content hread plan run location hf hhop next hnext ih => exact ih h
  | case6 => cases h
  | case7 n hops restarts url temp content hread plan run hf hrestart ih => exact ih h
  | case8 n hops restarts url temp content hread plan run hf =>
    have hsound : run.1.Sound :=
      HashingWriter.execute_sound (HashingWriter.openWriter_sound entry content) _
    obtain ⟨hbytes,hhash,-⟩ := verify_ok_iff.mp h
    exact ⟨run.1.file,rfl,by rw [← hsound.2,hbytes],by rw [← hsound.1,hhash]⟩

theorem download_requests (n hops restarts : Nat) (url : String) (temp : Option Bytes) :
    (download blake3 entry temp_path source n hops restarts url temp).requests.length ≤
      1+(redirectHopsMax-hops)+(1-restarts) := by
  fun_induction download blake3 entry temp_path source n hops restarts url temp with
  | case1 => exact Nat.zero_le _
  | case2 | case3 | case4 | case6 | case8 => simp only [length_singleton]; omega
  | case5 n hops restarts url temp content hread plan run location hf hhop next hnext ih =>
    simp only [after_requests,length_cons]
    omega
  | case7 n hops restarts url temp content hread plan run hf hrestart ih =>
    simp only [after_requests,length_cons]
    omega

theorem streamToTemp_verified {temp : Option Bytes}
    (h : (streamToTemp blake3 entry temp_path source temp).result = .ok receipt) :
    ∃ content, (streamToTemp blake3 entry temp_path source temp).temp = some content ∧
      Verified blake3 entry content := by
  unfold streamToTemp at h ⊢
  split at h
  · rename_i file_path hfile
    unfold copyFileSource at h ⊢
    cases hsource : source.file (String.ofList file_path) with
    | error e =>
      simp only [hsource] at h
      cases h
    | ok brought =>
      simp only [hsource] at h ⊢
      cases hcopy : (copyReads entry [] brought.1 brought.2).2 with
      | error e =>
        simp only [hcopy] at h
        cases h
      | ok _ =>
        simp only [hcopy] at h ⊢
        obtain ⟨hbytes,hhash,-⟩ := verify_ok_iff.mp h
        exact ⟨_,rfl,hbytes,hhash⟩
  · exact download_verified h

theorem streamToTemp_requests (temp : Option Bytes) :
    (streamToTemp blake3 entry temp_path source temp).requests.length ≤ 1+redirectHopsMax+1 := by
  unfold streamToTemp
  split
  · split <;> exact Nat.zero_le _
  · exact download_requests 0 0 0 entry.url temp

def Delivers (entry : ModelManifestEntry) (source : PullSource) (content : Bytes) (url : String) :
    Prop :=
  ∀ n resumed_from, ∃ head body,
    (head.status = 200 ∧ source.http n (downloadPlan entry url resumed_from) =
        .answered head body (.ok ()) ∧ body.flatten = content) ∨
    (0 < resumed_from ∧ head.status = 206 ∧ source.http n (downloadPlan entry url resumed_from) =
        .answered head body (.ok ()) ∧ body.flatten = content.drop resumed_from)

/-- The content is at most this many redirects away. -/
def Serves (entry : ModelManifestEntry) (source : PullSource) (content : Bytes) : Nat → String → Prop
  | 0, url => Delivers entry source content url
  | k+1, url => Delivers entry source content url ∨
      ∀ n resumed_from, ∃ head body ending location next,
        source.http n (downloadPlan entry url resumed_from) = .answered head body ending ∧
        HashingWriter.redirect head = some location ∧ resolveRedirect url location = some next ∧
        Serves entry source content k next

/-- A source that gives the manifest's bytes whenever it is asked. -/
structure RightBytes (blake3 : Bytes → String) (entry : ModelManifestEntry) (source : PullSource)
    (content : Bytes) : Prop where
  verified : Verified blake3 entry content
  file : ∀ file_path, stripPrefix "file://" entry.url.toList = some file_path →
    ∃ reads, source.file (String.ofList file_path) = .ok (reads,none) ∧ reads.flatten = content
  served : Serves entry source content redirectHopsMax entry.url

theorem chunks_append {w : HashingWriter} {head : HttpHead} (hhead : w.head = some head)
    (hstatus : head.status < 300) (body : List Bytes) (hfits : w.written+held body ≤ w.limit) :
    HashingWriter.handler.chunks w body =
      ({ w with
        file := w.file ++ body.flatten
        hasher := w.hasher ++ body.flatten
        written := w.written+held body },false) := by
  induction body generalizing w with
  | nil => simp [ResponseHandler.chunks]
  | cons chunk rest ih =>
    rw [held_cons] at hfits
    have hchunk : w.onChunk chunk =
        ({ w with
          file := w.file ++ chunk
          hasher := w.hasher ++ chunk
          written := w.written+chunk.length },false) := by
      rw [HashingWriter.onChunk,if_neg,if_neg]
      · simp only [satAdd64]
        omega
      · simp only [hhead,Option.all_some,decide_eq_true_eq]
        omega
    rw [ResponseHandler.chunks]
    simp only [HashingWriter.handler,hchunk]
    have hrest := @ih { w with
      file := w.file ++ chunk
      hasher := w.hasher ++ chunk
      written := w.written+chunk.length } hhead (by simp only; omega)
    rw [HashingWriter.handler] at hrest
    rw [hrest]
    simp [Nat.add_assoc]

theorem redirect_none {head : HttpHead} (h : head.status < 300) :
    HashingWriter.redirect head = none := by
  rw [HashingWriter.redirect,if_neg (by omega)]

def exchanged (entry : ModelManifestEntry) (content : Bytes) (exchange : Exchange) :
    HashingWriter × Except TransportError Unit :=
  HashingWriter.handler.execute (openWriter entry content) exchange

theorem exchanged_body {content : Bytes} {head : HttpHead} {body : List Bytes}
    (hstatus : head.status < 300)
    (hrange : ¬(0 < (resumed entry content).length ∧ head.status = 200))
    (hfits : (resumed entry content).length+held body ≤ entry.bytes) :
    ∃ w, exchanged entry content (.answered head body (.ok ())) = (w,.ok ()) ∧
      fetched entry temp_path w (.ok ()) = .whole ∧
      w.hasher = resumed entry content ++ body.flatten ∧
      w.written = (resumed entry content).length+held body := by
  have hhead : (openWriter entry content).onHead head =
      ({ openWriter entry content with head := some head },false) := by
    rw [HashingWriter.onHead,redirect_none hstatus]
    exact if_neg hrange
  have hbody := @chunks_append { openWriter entry content with head := some head } head rfl hstatus
    body hfits
  refine ⟨{ openWriter entry content with
      head := some head
      file := resumed entry content ++ body.flatten
      hasher := resumed entry content ++ body.flatten
      written := (resumed entry content).length+held body },?_,?_,rfl,rfl⟩
  · rw [HashingWriter.handler] at hbody
    simp only [exchanged,ResponseHandler.execute,HashingWriter.handler,hhead,hbody]
    rfl
  · simp only [fetched,stopped,openWriter]
    rw [if_neg (by omega)]
    rfl

theorem exchanged_redirect {content : Bytes} {head : HttpHead} {location : String}
    (hlocation : HashingWriter.redirect head = some location) (body : List Bytes)
    (ending : Except TransportError Unit) :
    ∃ w, exchanged entry content (.answered head body ending) = (w,.error .aborted) ∧
      fetched entry temp_path w (.error .aborted) = .redirected location ∧
      w.file = resumed entry content := by
  refine ⟨{ openWriter entry content with redirect_to := some location, head := some head },?_,?_,rfl⟩
  · simp only [exchanged,ResponseHandler.execute,HashingWriter.handler,HashingWriter.onHead,hlocation]
  · simp [fetched,stopped]

theorem exchanged_ignored {content : Bytes} {head : HttpHead} (hstatus : head.status = 200)
    (hrange : 0 < (resumed entry content).length) (body : List Bytes)
    (ending : Except TransportError Unit) :
    ∃ w, exchanged entry content (.answered head body ending) = (w,.error .aborted) ∧
      fetched entry temp_path w (.error .aborted) = .ignoredRange := by
  refine ⟨{ openWriter entry content with range_ignored := true, head := some head },?_,?_⟩
  · have hhead : (openWriter entry content).onHead head =
        ({ openWriter entry content with range_ignored := true, head := some head },true) := by
      rw [HashingWriter.onHead,redirect_none (by omega)]
      exact if_pos ⟨hrange,hstatus⟩
    simp only [exchanged,ResponseHandler.execute,HashingWriter.handler,hhead]
  · simp [fetched,stopped,openWriter,hstatus]

variable {n hops restarts : Nat} {url : String} {temp : Option Bytes} {content : Bytes}
  {w : HashingWriter} {ending : Except TransportError Unit}

section
variable (hread : readPartial entry temp = .ok content)
include hread

section
variable (hrun : exchanged entry content (source.http n (downloadPlan entry url (resumed entry content).length)) = (w,ending))
include hrun

theorem download_whole
    (hf : fetched entry temp_path w ending = .whole) :
    (download blake3 entry temp_path source n hops restarts url temp).result =
      verify blake3 entry w.written w.hasher := by
  rw [exchanged] at hrun
  rw [download]
  simp only [hread,hrun,hf]

theorem download_redirected {location next : String}
    (hf : fetched entry temp_path w ending = .redirected location)
    (hnext : resolveRedirect url location = some next) (hhop : hops < redirectHopsMax) :
    (download blake3 entry temp_path source n hops restarts url temp).result =
      (download blake3 entry temp_path source (n+1) (hops+1) restarts next (some w.file)).result := by
  rw [exchanged] at hrun
  rw [download]
  simp only [hread,hrun,hf,hnext]
  rw [dif_neg (by omega)]
  rfl

theorem download_ignored
    (hf : fetched entry temp_path w ending = .ignoredRange) :
    (download blake3 entry temp_path source n hops 0 url temp).result =
      (download blake3 entry temp_path source (n+1) hops 1 url none).result := by
  rw [exchanged] at hrun
  rw [download]
  simp only [hread,hrun,hf]
  rw [dif_neg (by omega)]
  rfl

end

end

theorem readPartial_nil : readPartial entry (some []) = .ok [] := by
  simp [readPartial]

theorem resumed_nil : resumed entry [] = [] := if_neg (by simp)

variable {right : Bytes}

theorem Delivers.plain (h : Delivers entry source right url) (n : Nat) :
    ∃ head body, head.status = 200 ∧ body.flatten = right ∧
      source.http n (downloadPlan entry url 0) = .answered head body (.ok ()) := by
  obtain ⟨head,body,⟨hstatus,hhttp,hbody⟩ | ⟨hpos,-⟩⟩ := h n 0
  · exact ⟨head,body,hstatus,hbody,hhttp⟩
  · omega

theorem download_plain (hright : Verified blake3 entry right)
    (h : Delivers entry source right url) (hread : readPartial entry temp = .ok content)
    (hfresh : resumed entry content = []) :
    (download blake3 entry temp_path source n hops restarts url temp).result =
      .ok (entry.bytes,blake3 right) := by
  obtain ⟨head,body,hstatus,hbody,hhttp⟩ := h.plain n
  have hlen : held body = entry.bytes := by rw [held_eq,hbody,hright.1]
  obtain ⟨w,hrun,hf,hhash,hwritten⟩ := @exchanged_body entry temp_path content head body
    (by omega) (by simp [hfresh]) (by simp [hfresh,hlen])
  rw [hfresh] at hhash hwritten
  rw [download_whole hread (by rw [hfresh,length_nil,hhttp,hrun]) hf,hhash,hwritten,hbody]
  exact verify_ok_iff.mpr ⟨by simp [hlen],hright.2,by simp [hlen]⟩

theorem download_fresh (hright : Verified blake3 entry right) {k : Nat}
    (h : Serves entry source right k url) (hhops : hops+k ≤ redirectHopsMax)
    (hread : readPartial entry temp = .ok content) (hfresh : resumed entry content = []) :
    (download blake3 entry temp_path source n hops restarts url temp).result =
      .ok (entry.bytes,blake3 right) := by
  induction k generalizing n hops url temp content with
  | zero => exact download_plain hright h hread hfresh
  | succ k ih =>
    rcases h with hhere | hredirect
    · exact download_plain hright hhere hread hfresh
    · obtain ⟨head,body,ending,location,next,hhttp,hlocation,hnext,hserves⟩ := hredirect n 0
      obtain ⟨w,hrun,hf,hfile⟩ := @exchanged_redirect entry temp_path content head location hlocation
        body ending
      rw [download_redirected hread (by rw [hfresh,length_nil,hhttp,hrun]) hf hnext (by omega)]
      rw [hfresh] at hfile
      rw [hfile]
      exact ih hserves (by omega) readPartial_nil resumed_nil

def RightOrMismatch (blake3 : Bytes → String) (entry : ModelManifestEntry)
    (result : Except ModelPullError (Nat × String)) : Prop :=
  (∃ receipt, result = .ok receipt) ∨
    ∃ actual, result =
      .error (.checksumMismatch entry.name entry.blake3.toLower (blake3 actual))

theorem verify_length :
    RightOrMismatch blake3 entry (verify blake3 entry entry.bytes hashed) := by
  unfold verify
  rw [if_neg (by simp)]
  split_ifs
  · exact Or.inr ⟨hashed,rfl⟩
  · exact Or.inl ⟨_,rfl⟩

theorem download_ranged (hright : Verified blake3 entry right)
    (h : Delivers entry source right url) (hread : readPartial entry temp = .ok content)
    (hresume : resumed entry content = content) (hpos : 0 < content.length)
    (hlt : content.length < entry.bytes) :
    RightOrMismatch blake3 entry
      (download blake3 entry temp_path source n hops 0 url temp).result := by
  obtain ⟨head,body,⟨hstatus,hhttp,-⟩ | ⟨-,hstatus,hhttp,hbody⟩⟩ := h n content.length
  · -- the range was ignored, and the pull starts over
    obtain ⟨w,hrun,hf⟩ := @exchanged_ignored entry temp_path content head hstatus
      (by rw [hresume]; exact hpos) body (.ok ())
    rw [download_ignored hread (by rw [hresume,hhttp,hrun]) hf]
    exact Or.inl ⟨_,download_plain hright h rfl resumed_nil⟩
  · have hlen : content.length+held body = entry.bytes := by
      rw [held_eq,hbody,length_drop,hright.1]
      omega
    obtain ⟨w,hrun,hf,hhash,hwritten⟩ := @exchanged_body entry temp_path content head body
      (by omega) (by omega) (by rw [hresume,hlen])
    rw [download_whole hread (by rw [hresume,hhttp,hrun]) hf,hwritten,hresume,hlen]
    exact verify_length

theorem download_resumed {right : Bytes} (hright : Verified blake3 entry right) {k : Nat}
    (h : Serves entry source right k url) (hhops : hops+k ≤ redirectHopsMax)
    (hread : readPartial entry temp = .ok content) (hresume : resumed entry content = content)
    (hpos : 0 < content.length) (hlt : content.length < entry.bytes) :
    RightOrMismatch blake3 entry
      (download blake3 entry temp_path source n hops 0 url temp).result := by
  induction k generalizing n hops url temp with
  | zero => exact download_ranged hright h hread hresume hpos hlt
  | succ k ih =>
    rcases h with hhere | hredirect
    · exact download_ranged hright hhere hread hresume hpos hlt
    · obtain ⟨head,body,ending,location,next,hhttp,hlocation,hnext,hserves⟩ :=
        hredirect n content.length
      obtain ⟨w,hrun,hf,hfile⟩ := @exchanged_redirect entry temp_path content head location hlocation
        body ending
      rw [download_redirected hread (by rw [hresume,hhttp,hrun]) hf hnext (by omega)]
      rw [hfile,hresume]
      refine ih hserves (by omega) ?_
      rw [readPartial,if_neg (by omega)]

theorem copyReads_fits (file : Bytes) (reads : List Bytes)
    (h : file.length+held reads ≤ entry.bytes) :
    copyReads entry file reads none = (file ++ reads.flatten,.ok ()) := by
  induction reads generalizing file with
  | nil => simp [copyReads]
  | cons read reads ih =>
    rw [held_cons] at h
    rw [copyReads,if_neg (by simp only [satAdd64]; omega),
      ih _ (by rw [length_append]; omega)]
    simp

theorem streamToTemp_fresh (h : RightBytes blake3 entry source right) :
    (streamToTemp blake3 entry temp_path source none).result = .ok (entry.bytes,blake3 right) := by
  unfold streamToTemp
  split
  · rename_i file_path hfile
    obtain ⟨reads,hsource,hreads⟩ := h.file file_path hfile
    have hcopy := @copyReads_fits entry [] reads (by rw [held_eq,hreads,h.verified.1]; simp)
    rw [nil_append] at hcopy
    simp only [copyFileSource,hsource,hcopy,hreads,Option.getD_some]
    exact verify_ok_iff.mpr ⟨h.verified.1,h.verified.2,by rw [h.verified.1]⟩
  · exact download_fresh h.verified h.served (by omega) rfl resumed_nil

def FailsVerification : ModelPullError → Prop
  | .checksumMismatch ..
  | .sizeMismatch ..
  | .overrun ..
  | .partialTooLong .. => True
  | _ => False

theorem streamToTemp_right {right : Bytes} (h : RightBytes blake3 entry source right)
    (temp : Option Bytes) :
    (∃ receipt, (streamToTemp blake3 entry temp_path source temp).result = .ok receipt) ∨
      ∃ e, (streamToTemp blake3 entry temp_path source temp).result = .error e ∧
        FailsVerification e := by
  cases hfile : stripPrefix "file://" entry.url.toList with
  | some file_path =>
    obtain ⟨reads,hsource,hreads⟩ := h.file file_path hfile
    have hcopy := @copyReads_fits entry [] reads (by rw [held_eq,hreads,h.verified.1]; simp)
    rw [nil_append] at hcopy
    refine Or.inl ⟨(entry.bytes,blake3 right),?_⟩
    simp only [streamToTemp,hfile,copyFileSource,hsource,hcopy,hreads,Option.getD_some]
    exact verify_ok_iff.mpr ⟨h.verified.1,h.verified.2,by rw [h.verified.1]⟩
  | none =>
    simp only [streamToTemp,hfile]
    cases hread : readPartial entry temp with
    | error e =>
      refine Or.inr ⟨e,by rw [download]; simp only [hread],?_⟩
      cases temp with
      | none => cases hread
      | some content =>
        rw [readPartial] at hread
        split_ifs at hread
        cases hread
        trivial
    | ok content =>
      by_cases hresume : 0 < content.length ∧ content.length < entry.bytes
      · rcases @download_resumed blake3 entry temp_path source 0 0 entry.url temp content right
          h.verified redirectHopsMax h.served (by omega) hread (if_pos hresume) hresume.1 hresume.2
          with hok | ⟨actual,hmismatch⟩
        · exact Or.inl hok
        · exact Or.inr ⟨_,hmismatch,trivial⟩
      · exact Or.inl ⟨_,download_fresh h.verified h.served (by omega) hread (if_neg hresume)⟩

theorem download_head (url : String) :
    (download blake3 entry temp_path source n hops restarts url none).requests.head? =
      some (downloadPlan entry url 0) := by
  rw [download]
  simp only [readPartial,resumed_nil,length_nil]
  split
  · rfl
  · split_ifs
    · rfl
    · split <;> rfl
  · split_ifs <;> rfl
  · rfl

theorem streamToTemp_unranged {plan : HttpRequestPlan}
    (h : plan ∈ (streamToTemp blake3 entry temp_path source none).requests.head?) (value : String) :
    ("range",value) ∉ plan.headers := by
  unfold streamToTemp at h
  split at h
  · split at h <;> simp at h
  · rw [download_head] at h
    cases h
    simp [downloadPlan]

end

structure PullAttempt where
  consent : PullConsent
  source : PullSource
  budget_bytes : Nat

section
variable (blake3 : Bytes → String) (entry : ModelManifestEntry) (dest_dir : String)

def PullAttempt.pull (attempt : PullAttempt) (dir : ModelDir) : Pull :=
  pullModelWithBudget blake3 entry dest_dir attempt.consent attempt.source attempt.budget_bytes dir

def pulled (dir : ModelDir) (attempts : List PullAttempt) : ModelDir :=
  attempts.foldl (fun dir attempt => (attempt.pull blake3 entry dest_dir dir).dir) dir

/-- The pull succeeds, and what it leaves in place has the manifest's size and hash. -/
def Pull.Places (pull : Pull) : Prop :=
  ∃ report content, pull.result = .ok report ∧ pull.dir = ⟨some content,none⟩ ∧
    Verified blake3 entry content

/-- An attempt that may fetch, and whose source has the right bytes. -/
structure PullAttempt.Admitted (attempt : PullAttempt) (right : Bytes) : Prop where
  consent : attempt.consent = .given
  budget : entry.bytes ≤ attempt.budget_bytes
  right_bytes : RightBytes blake3 entry attempt.source right

variable {blake3 entry dest_dir} {attempt : PullAttempt} {dir : ModelDir}

theorem pull_cases (attempt : PullAttempt) (dir : ModelDir) :
    (attempt.pull blake3 entry dest_dir dir).dir = dir ∧
        (attempt.pull blake3 entry dest_dir dir).requests = [] ∧
        (∃ e, (attempt.pull blake3 entry dest_dir dir).result = .error e ∧ ¬FailsVerification e) ∨
      dir.final = none ∧ ∃ streamed temp_path,
        streamed = streamToTemp blake3 entry temp_path attempt.source dir.temp ∧
        (attempt.pull blake3 entry dest_dir dir).requests = streamed.requests ∧
        ((∃ receipt report, streamed.result = .ok receipt ∧
            (attempt.pull blake3 entry dest_dir dir).result = .ok report ∧
            (attempt.pull blake3 entry dest_dir dir).dir = ⟨streamed.temp,none⟩) ∨
          ∃ e, streamed.result = .error e ∧
            (attempt.pull blake3 entry dest_dir dir).result = .error e ∧
            (attempt.pull blake3 entry dest_dir dir).dir =
              ⟨none,if discardsPartial e then none else streamed.temp⟩) := by
  simp only [PullAttempt.pull,pullModelWithBudget]
  split_ifs with hconsent hbudget hpresent
  · exact Or.inl ⟨rfl,rfl,_,rfl,id⟩
  · exact Or.inl ⟨rfl,rfl,_,rfl,id⟩
  · exact Or.inl ⟨rfl,rfl,_,rfl,id⟩
  · refine Or.inr ⟨by simpa using hpresent,_,s!"{dest_dir}/{entry.name}.pulling",rfl,?_⟩
    split
    · rename_i bytes hash hok
      exact ⟨rfl,Or.inl ⟨_,_,hok,rfl,rfl⟩⟩
    · rename_i e he
      exact ⟨rfl,Or.inr ⟨e,he,rfl,rfl⟩⟩

variable {content : Bytes}

theorem pull_final
    (h : (attempt.pull blake3 entry dest_dir dir).dir.final = some content) :
    dir.final = some content ∨ Verified blake3 entry content := by
  rcases pull_cases attempt dir with ⟨hdir,-⟩ | ⟨-,streamed,temp_path,rfl,-,hcases⟩
  · rw [hdir] at h
    exact Or.inl h
  · rcases hcases with ⟨receipt,report,hok,-,hdir⟩ | ⟨e,-,-,hdir⟩
    · rw [hdir] at h
      obtain ⟨content',htemp,hverified⟩ := streamToTemp_verified hok
      rw [htemp] at h
      cases h
      exact Or.inr hverified
    · rw [hdir] at h
      cases h

theorem pull_places {report : PullReport}
    (h : (attempt.pull blake3 entry dest_dir dir).result = .ok report) :
    (attempt.pull blake3 entry dest_dir dir).Places blake3 entry := by
  rcases pull_cases attempt dir with ⟨-,-,e,hresult,-⟩ | ⟨-,streamed,temp_path,rfl,-,hcases⟩
  · rw [hresult] at h
    cases h
  · rcases hcases with ⟨receipt,report',hok,hresult,hdir⟩ | ⟨e,-,hresult,-⟩
    · obtain ⟨content,htemp,hverified⟩ := streamToTemp_verified hok
      exact ⟨report',content,hresult,by rw [hdir,htemp],hverified⟩
    · rw [hresult] at h
      cases h

theorem pulled_final (attempts : List PullAttempt)
    (h : (pulled blake3 entry dest_dir dir attempts).final = some content) :
    dir.final = some content ∨ Verified blake3 entry content := by
  induction attempts generalizing dir with
  | nil => exact Or.inl h
  | cons attempt attempts ih =>
    rcases ih h with hbefore | hverified
    · exact pull_final hbefore
    · exact Or.inr hverified

theorem pull_discards {e : ModelPullError}
    (h : (attempt.pull blake3 entry dest_dir dir).result = .error e) (he : FailsVerification e) :
    (attempt.pull blake3 entry dest_dir dir).dir = ⟨none,none⟩ := by
  rcases pull_cases attempt dir with ⟨-,-,e',hresult,hplain⟩ | ⟨-,streamed,temp_path,rfl,-,hcases⟩
  · rw [hresult] at h
    cases h
    exact absurd he hplain
  · rcases hcases with ⟨receipt,report,-,hresult,-⟩ | ⟨e',-,hresult,hdir⟩
    · rw [hresult] at h
      cases h
    · rw [hresult] at h
      cases h
      have hdiscard : discardsPartial e = true := by
        cases e <;> first | rfl | exact absurd he id
      rw [hdir,if_pos hdiscard]

theorem pull_unranged {plan : HttpRequestPlan} (hnone : dir.temp = none)
    (h : plan ∈ (attempt.pull blake3 entry dest_dir dir).requests.head?) (value : String) :
    ("range",value) ∉ plan.headers := by
  rcases pull_cases attempt dir with ⟨-,hrequests,-⟩ | ⟨-,streamed,temp_path,rfl,hrequests,-⟩
  · rw [hrequests] at h
    cases h
  · rw [hrequests,hnone] at h
    exact streamToTemp_unranged h value

theorem pull_requests (attempt : PullAttempt) (dir : ModelDir) :
    (attempt.pull blake3 entry dest_dir dir).requests.length ≤ 1+redirectHopsMax+1 := by
  rcases pull_cases attempt dir with ⟨-,hrequests,-⟩ | ⟨-,streamed,temp_path,rfl,hrequests,-⟩
  · rw [hrequests]
    exact Nat.zero_le _
  · rw [hrequests]
    exact streamToTemp_requests dir.temp

theorem admitted_pull {right : Bytes} (h : attempt.Admitted blake3 entry right)
    (hfinal : dir.final = none) :
    ∃ temp_path, ((∃ receipt, (streamToTemp blake3 entry temp_path attempt.source dir.temp).result =
          .ok receipt) → ∃ report, (attempt.pull blake3 entry dest_dir dir).result = .ok report) ∧
      ∀ e, (streamToTemp blake3 entry temp_path attempt.source dir.temp).result = .error e →
        (attempt.pull blake3 entry dest_dir dir).result = .error e := by
  refine ⟨s!"{dest_dir}/{entry.name}.pulling",?_⟩
  have hconsent : attempt.consent ≠ .withheld := by
    rw [h.consent]
    exact PullConsent.noConfusion
  simp only [PullAttempt.pull,pullModelWithBudget]
  rw [if_neg hconsent,if_neg (Nat.not_lt.mpr h.budget),if_neg (by simp [hfinal])]
  constructor
  · rintro ⟨receipt,hok⟩
    simp only [hok]
    exact ⟨_,rfl⟩
  · intro e he
    simp only [he]

theorem pull_right {right : Bytes} (h : attempt.Admitted blake3 entry right)
    (hfinal : dir.final = none) :
    (attempt.pull blake3 entry dest_dir dir).Places blake3 entry ∨
      ∃ e, (attempt.pull blake3 entry dest_dir dir).result = .error e ∧ FailsVerification e := by
  obtain ⟨temp_path,hok,herror⟩ := @admitted_pull blake3 entry dest_dir attempt dir right h hfinal
  rcases @streamToTemp_right blake3 entry temp_path attempt.source right h.right_bytes dir.temp with
    hstreamed | ⟨e,he,hfails⟩
  · obtain ⟨report,hreport⟩ := hok hstreamed
    exact Or.inl (pull_places hreport)
  · exact Or.inr ⟨e,herror e he,hfails⟩

theorem pull_right_fresh {right : Bytes} (h : attempt.Admitted blake3 entry right) :
    (attempt.pull blake3 entry dest_dir ⟨none,none⟩).Places blake3 entry := by
  obtain ⟨temp_path,hok,-⟩ := @admitted_pull blake3 entry dest_dir attempt ⟨none,none⟩ right h rfl
  obtain ⟨report,hreport⟩ := hok ⟨_,streamToTemp_fresh h.right_bytes⟩
  exact pull_places hreport

end

/-- Whatever a directory held and earlier transports answered: only verified bytes come
into place, and every success puts them there; bytes that fail verification are not gone
on from, the right bytes get through with at most one attempt thrown away, and no
attempt asks beyond its bounds. -/
theorem pulls_sound (blake3 : Bytes → String) (entry : ModelManifestEntry) (dest_dir : String)
    (start : ModelDir) (attempts : List PullAttempt) :
    (∀ content, (pulled blake3 entry dest_dir start attempts).final = some content →
      start.final = some content ∨ Verified blake3 entry content) ∧
    (∀ (attempt next : PullAttempt) (e : ModelPullError),
      (attempt.pull blake3 entry dest_dir (pulled blake3 entry dest_dir start attempts)).result =
        .error e → FailsVerification e →
      (attempt.pull blake3 entry dest_dir (pulled blake3 entry dest_dir start attempts)).dir =
        ⟨none,none⟩ ∧
      ∀ plan ∈ (next.pull blake3 entry dest_dir ⟨none,none⟩).requests.head?,
        ∀ value, ("range",value) ∉ plan.headers) ∧
    (∀ (first second : PullAttempt) right right', first.Admitted blake3 entry right →
      second.Admitted blake3 entry right' →
      (pulled blake3 entry dest_dir start attempts).final = none →
      (first.pull blake3 entry dest_dir
        (pulled blake3 entry dest_dir start attempts)).Places blake3 entry ∨
      (∃ e, (first.pull blake3 entry dest_dir
        (pulled blake3 entry dest_dir start attempts)).result = .error e ∧ FailsVerification e) ∧
      (second.pull blake3 entry dest_dir (first.pull blake3 entry dest_dir
        (pulled blake3 entry dest_dir start attempts)).dir).Places blake3 entry) ∧
    ∀ attempt : PullAttempt,
      (attempt.pull blake3 entry dest_dir
        (pulled blake3 entry dest_dir start attempts)).requests.length ≤ 1+redirectHopsMax+1 ∧
      ∀ report, (attempt.pull blake3 entry dest_dir
        (pulled blake3 entry dest_dir start attempts)).result = .ok report →
        (attempt.pull blake3 entry dest_dir
          (pulled blake3 entry dest_dir start attempts)).Places blake3 entry := by
  refine ⟨fun content h => pulled_final attempts h,fun attempt next e h he => ?_,
    fun first second right right' hfirst hsecond hfinal => ?_,
    fun attempt => ⟨pull_requests _ _,fun _ h => pull_places h⟩⟩
  · exact ⟨pull_discards h he,fun plan hplan => pull_unranged rfl hplan⟩
  · rcases @pull_right _ _ dest_dir _ _ _ hfirst hfinal with hok | ⟨e,he,hfails⟩
    · exact Or.inl hok
    · refine Or.inr ⟨⟨e,he,hfails⟩,?_⟩
      rw [pull_discards he hfails]
      exact pull_right_fresh hsecond

namespace PullDemo

def entry : ModelManifestEntry := ⟨"m","https://a.example/m","ab",2⟩

def blake3 (bytes : Bytes) : String := if bytes = [1,2] then "ab" else "cd"

def source : PullSource where
  http _ _ := .answered ⟨200,[]⟩ [[1],[2]] (.ok ())
  file _ := .error "no file"

def attempt : PullAttempt := ⟨.given,source,10⟩

def drops : PullAttempt :=
  ⟨.given,⟨fun _ _ => .answered ⟨200,[]⟩ [[9]] (.error (.timeout 600000)),fun _ => .error "no file"⟩,10⟩

theorem entry_verified : Verified blake3 entry [1,2] := by
  have hlower : entry.blake3.toLower = "ab" := by
    refine String.toList_injective ?_
    change (("ab".map Char.toLower).toList) = _
    rw [String.toList_map]
    decide
  exact ⟨rfl,hlower.symm⟩

theorem entry_remote : stripPrefix "file://" entry.url.toList = none := by decide

theorem attempt_admitted : attempt.Admitted blake3 entry [1,2] := by
  refine ⟨rfl,by decide,entry_verified,?_,Or.inl fun n resumed_from => ?_⟩
  · intro file_path h
    rw [entry_remote] at h
    cases h
  · exact ⟨⟨200,[]⟩,[[1],[2]],Or.inl ⟨rfl,rfl,rfl⟩⟩

theorem drops_final : (pulled blake3 entry "models" ⟨none,none⟩ [drops]).final = none := by
  rw [pulled,foldl_cons,foldl_nil]
  rcases pull_cases drops ⟨none,none⟩ with ⟨hdir,-⟩ | ⟨-,streamed,temp_path,rfl,-,hcases⟩
  · rw [hdir]
  · rcases hcases with ⟨receipt,report,hok,-⟩ | ⟨e,-,-,hdir⟩
    · have hrun : fetched entry temp_path
          (exchanged entry [] (drops.source.http 0 (downloadPlan entry entry.url 0))).1
          (exchanged entry [] (drops.source.http 0 (downloadPlan entry entry.url 0))).2 =
            .failed (.source (TransportError.timeout 600000).text) := rfl
      simp only [streamToTemp,entry_remote] at hok
      rw [download] at hok
      rw [exchanged] at hrun
      simp only [readPartial,resumed_nil,length_nil,hrun] at hok
      cases hok
    · rw [hdir]

end PullDemo

open PullDemo in
/-- After a drop that left a wrong byte, two attempts are enough. -/
theorem dropped_then_pulled :
    (attempt.pull blake3 entry "models"
        (pulled blake3 entry "models" ⟨none,none⟩ [drops])).Places blake3 entry ∨
      (∃ e, (attempt.pull blake3 entry "models"
          (pulled blake3 entry "models" ⟨none,none⟩ [drops])).result = .error e ∧
        FailsVerification e) ∧
      (attempt.pull blake3 entry "models" (attempt.pull blake3 entry "models"
        (pulled blake3 entry "models" ⟨none,none⟩ [drops])).dir).Places blake3 entry :=
  (pulls_sound blake3 entry "models" ⟨none,none⟩ [drops]).2.2.1 attempt attempt [1,2] [1,2]
    attempt_admitted attempt_admitted drops_final

end ProjectOS.Gateway
