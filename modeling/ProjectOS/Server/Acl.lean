import Mathlib.Data.List.DropRight
import Mathlib.Tactic.NormNum
import ProjectOS.Api.Dispatch
import ProjectOS.Lib.Utf8

/-! The web server's control database and its deny-by-default authorization. -/

namespace ProjectOS.Server
open Lib Api List

inductive Role where
  | viewer | member | admin | owner
  deriving DecidableEq

namespace Role

def parse (text : String) : Option Role :=
  if text = "viewer" then some .viewer
  else if text = "member" then some .member
  else if text = "admin" then some .admin
  else if text = "owner" then some .owner
  else none

def asStr : Role → String
  | .viewer => "viewer"
  | .member => "member"
  | .admin => "admin"
  | .owner => "owner"

def rank : Role → Nat
  | .viewer => 0
  | .member => 1
  | .admin => 2
  | .owner => 3

@[simp] theorem parse_asStr (r : Role) : parse r.asStr = some r := by
  cases r <;> simp [parse,asStr]

end Role

structure AuditRow where
  actor : AccountId
  action : String
  target : String
  ts_ms : Nat

structure ControlDb where
  accounts : List (AccountId × String)
  workspaces : List WorkspaceId
  membership : WorkspaceId × AccountId → Option String
  audit_log : List AuditRow

namespace ControlDb

def initial : ControlDb := ⟨[],[],fun _ => none,[]⟩

def createAccount (c : ControlDb) (account : AccountId) (workspace : WorkspaceId)
    (email : String) : Except ApiError ControlDb :=
  if c.accounts.any (fun row => row.1 = account ∨ row.2 = email) then
    .error ⟨"already_exists","an account already exists for this email",false⟩
  else if workspace ∈ c.workspaces then
    .error ⟨"control_failure","control.db: UNIQUE constraint failed: workspaces.id",false⟩
  else if (c.membership (workspace,account)).isSome then
    .error ⟨"control_failure",
      "control.db: UNIQUE constraint failed: membership.workspace, membership.account",false⟩
  else .ok { c with
    accounts := (account,email) :: c.accounts
    workspaces := workspace :: c.workspaces
    membership := Function.update c.membership (workspace,account) (some Role.owner.asStr) }

def grantMembership (c : ControlDb) (workspace : WorkspaceId) (account : AccountId)
    (role : Role) : Except ApiError ControlDb :=
  if workspace ∈ c.workspaces ∧ c.accounts.any (fun row => row.1 = account) then
    .ok { c with
      membership := Function.update c.membership (workspace,account) (some role.asStr) }
  else .error ⟨"control_failure","control.db: FOREIGN KEY constraint failed",false⟩

def roleInWorkspace (c : ControlDb) (workspace : WorkspaceId) (account : AccountId) :
    Option Role := (c.membership (workspace,account)).bind Role.parse

def audit (c : ControlDb) (actor : AccountId) (action target : String) (ts_ms : Nat) : ControlDb :=
  { c with audit_log := c.audit_log ++ [⟨actor,action,target,ts_ms⟩] }

def Extends (c c' : ControlDb) : Prop :=
  ∀ workspace account, (c.roleInWorkspace workspace account).isSome →
    (c'.roleInWorkspace workspace account).isSome

theorem extends_refl (c : ControlDb) : Extends c c := fun _ _ h => h

theorem extends_put (c c' : ControlDb) (key : WorkspaceId × AccountId) (role : Role)
    (h : c'.membership = Function.update c.membership key (some role.asStr)) : Extends c c' := by
  intro workspace account hheld
  by_cases hk : (workspace,account) = key
  · simp [roleInWorkspace,h,hk]
  · simpa [roleInWorkspace,h,Function.update_of_ne hk] using hheld

theorem createAccount_extends {c c' : ControlDb} {account : AccountId} {workspace : WorkspaceId}
    {email : String} (h : c.createAccount account workspace email = .ok c') : Extends c c' := by
  unfold createAccount at h
  split_ifs at h
  cases h
  exact extends_put c _ (workspace,account) .owner rfl

theorem grantMembership_extends {c c' : ControlDb} {workspace : WorkspaceId} {account : AccountId}
    {role : Role} (h : c.grantMembership workspace account role = .ok c') : Extends c c' := by
  unfold grantMembership at h
  split_ifs at h
  cases h
  exact extends_put c _ (workspace,account) role rfl

end ControlDb

inductive Access where
  | read | mutate
  deriving DecidableEq

def Access.required : Access → Role
  | .read => .viewer
  | .mutate => .member

def PROJECT_NAME_LEN_MAX : Nat := 64

def joinPath (base component : List Char) : List Char :=
  match base.getLast? with
  | none => component
  | some c => if c = '/' then base ++ component else base ++ '/' :: component

def readBytes : Nat → List Char → Option Nat
  | acc, [] => some acc
  | _, [_] => none
  | acc, a :: b :: rest =>
    if a.isUpper ∨ b.isUpper then none
    else match fromStrRadix 16 u8Max [a,b] with
      | none => none
      | some byte => readBytes (acc*256+byte) rest

def posFoundationHex (text : List Char) : Option WorkspaceId :=
  if byteLen text ≠ 32 then none
  else (readBytes 0 text).map (fun n => ⟨BitVec.ofNat 128 n⟩)

def invalidPath (message : String) : ApiError := ⟨"invalid_input",message,false⟩

def forbidden (message : String) : ApiError := ⟨"forbidden",message,false⟩

def nameOk (name : List Char) : Bool :=
  !name.isEmpty && byteLen name ≤ PROJECT_NAME_LEN_MAX &&
    name.all (fun c => c.isAlphanum || c == '-' || c == '_')

def workspacesRoot (data_root : String) : List Char := joinPath data_root.toList "workspaces".toList

def parsePlacement (data_root path_text : String) : Except ApiError WorkspaceId :=
  match (path_text.toList.dropPrefix? (workspacesRoot data_root)).bind
      (fun rest => rest.dropPrefix? ['/']) with
  | none => .error (invalidPath "project paths must sit under this server's workspaces root")
  | some remainder =>
    match splitOnce '/' remainder with
    | none => .error (invalidPath "expected <workspace>/<name>.pos under the root")
    | some (workspace_hex,name_with_extension) =>
      match posFoundationHex workspace_hex with
      | none => .error (invalidPath "the workspace segment must be 32 lowercase hex chars")
      | some workspace_id =>
        match name_with_extension.dropSuffix? ".pos".toList with
        | none => .error (invalidPath "project directories end in .pos")
        | some name =>
          if nameOk name then .ok workspace_id
          else .error (invalidPath "project names are 1-64 chars of [A-Za-z0-9_-]")

structure ControlFaults where
  role : WorkspaceId → Option ApiError
  directory : WorkspaceId → Option ApiError

def ControlFaults.clear : ControlFaults := ⟨fun _ => none,fun _ => none⟩

section Authorize
variable (faults : ControlFaults) (control : ControlDb) (data_root : String) (account : AccountId)

def authorizePath (path_text : String) (access : Access) : Except ApiError Unit :=
  match parsePlacement data_root path_text with
  | .error e => .error e
  | .ok workspace_id =>
    match faults.role workspace_id with
    | some e => .error e
    | none =>
      match control.roleInWorkspace workspace_id account with
      | none => .error (forbidden "this account has no membership in the named workspace")
      | some held =>
        if held.rank < access.required.rank then
          .error (forbidden "this operation mutates the workspace; role viewer is read-only")
        else match faults.directory workspace_id with
          | some e => .error e
          | none => .ok ()

def authorizeCommand (w : Wire) (command : CommandName) (input_json : String) :
    Except ApiError Unit :=
  match command with
  | .projectCreate => do
    let input ← parseInput w.projectCreate input_json
    authorizePath faults control data_root account input.path .mutate
  | .projectSeedSynthetic => do
    let input ← parseInput w.projectSeed input_json
    authorizePath faults control data_root account input.path .mutate
  | .projectExport => do
    let input ← parseInput w.projectExport input_json
    authorizePath faults control data_root account input.path .mutate
    authorizePath faults control data_root account input.out .mutate
  | .projectOpen | .projectClose => do
    let input ← parseInput w.projectPath input_json
    authorizePath faults control data_root account input.path .read
  | .runStart => do
    let input ← parseInput w.runStart input_json
    authorizePath faults control data_root account input.path .mutate
  | .runCancel | .runPause => do
    let input ← parseInput w.runControl input_json
    authorizePath faults control data_root account input.path .mutate
  | .runResume => do
    let input ← parseInput w.runResume input_json
    authorizePath faults control data_root account input.path .mutate
  | .modelsPull | .ingestSubmit | .ingestReprocess | .transcriptCorrect | .transcriptSpeakerName
  | .transcriptSpeakerAssign =>
    .error (forbidden "no authorization policy is registered for this command")

def authorizeQuery (w : Wire) (query : QueryName) (input_json : String) : Except ApiError Unit :=
  match query with
  | .projectInspect | .projectVerify => do
    let input ← parseInput w.projectPath input_json
    authorizePath faults control data_root account input.path .read
  | .costRollup => do
    let input ← parseInput w.costRollup input_json
    match input.path with
    | some path => authorizePath faults control data_root account path .read
    | none => .ok ()
  | .capabilitySnapshot | .projectList | .jobList | .health => .ok ()
  | .cronPreview | .evidenceList | .sourceHealth | .transcriptGet =>
    .error (forbidden "no authorization policy is registered for this query")

def authorizeStream (w : Wire) (stream : StreamName) (input_json : String) :
    Except ApiError Unit :=
  match stream with
  | .runSteps => do
    let input ← parseInput w.runSteps input_json
    authorizePath faults control data_root account input.path .read

end Authorize

def auditedAction : CommandName → Option String
  | .projectCreate => some "project.create"
  | .projectOpen => some "project.open"
  | .projectClose => some "project.close"
  | .runStart => some "run.start"
  | .runCancel => some "run.cancel"
  | _ => none

section Placement

def InWorkspace (data_root path : String) (workspace : WorkspaceId) : Prop :=
  ∃ segment name, path.toList = workspacesRoot data_root ++ '/' :: (segment ++ '/' :: (name ++ ".pos".toList))
    ∧ posFoundationHex segment = some workspace ∧ nameOk name = true

theorem toDigit_slash : toDigit 16 '/' = none := by decide

theorem fromStrRadix_pair {a b : Char} {byte : Nat} (h : fromStrRadix 16 u8Max [a,b] = some byte) :
    (a = '+' ∧ toDigit 16 b = some byte) ∨
    ∃ x y, toDigit 16 a = some x ∧ toDigit 16 b = some y ∧ byte = x*16+y := by
  unfold fromStrRadix at h
  split at h
  · cases h
  · rename_i heq; cases heq
  · rename_i rest hne heq
    cases heq
    simp only [readDigits] at h
    cases hb : toDigit 16 b with
    | none => simp [hb] at h
    | some y =>
      simp only [hb] at h
      split_ifs at h
      exact Or.inl ⟨rfl,by simpa using h⟩
  · simp only [readDigits] at h
    cases ha : toDigit 16 a with
    | none => simp [ha] at h
    | some x =>
      cases hb : toDigit 16 b with
      | none =>
        simp only [ha,hb] at h
        split_ifs at h
      | some y =>
        simp only [ha,hb] at h
        split_ifs at h
        exact Or.inr ⟨x,y,rfl,rfl,by simpa using h.symm⟩

theorem slash_not_mem_readBytes {acc n : Nat} {text : List Char}
    (h : readBytes acc text = some n) : '/' ∉ text := by
  induction acc, text using readBytes.induct with
  | case1 acc => simp
  | case2 acc c => simp [readBytes] at h
  | case3 acc a b rest hu => simp [readBytes,hu] at h
  | case4 acc a b rest hu hn => simp [readBytes,hu,hn] at h
  | case5 acc a b rest hu byte hb ih =>
    simp only [readBytes,hu,if_false,hb] at h
    have hrest := ih h
    have hpair := fromStrRadix_pair hb
    simp only [mem_cons,not_or]
    constructor
    · rintro rfl
      rcases hpair with ⟨hc,_⟩ | ⟨x,_,hx,_⟩
      · exact absurd hc (by decide)
      · simp [toDigit_slash] at hx
    · constructor
      · rintro rfl
        rcases hpair with ⟨_,hy⟩ | ⟨_,y,_,hy,_⟩ <;> simp [toDigit_slash] at hy
      · exact hrest

variable {workspace : WorkspaceId} {segment : List Char}

theorem slash_not_mem_segment
    (h : posFoundationHex segment = some workspace) : '/' ∉ segment := by
  unfold posFoundationHex at h
  split_ifs at h
  obtain ⟨n,hn,_⟩ := Option.map_eq_some_iff.mp h
  exact slash_not_mem_readBytes hn

theorem parsePlacement_eq_ok {data_root path : String} :
    parsePlacement data_root path = .ok workspace ↔ InWorkspace data_root path workspace := by
  constructor
  · intro h
    unfold parsePlacement at h
    split at h
    · cases h
    · rename_i remainder hr
      split at h
      · cases h
      · rename_i segment extended hs
        split at h
        · cases h
        · rename_i id hid
          split at h
          · cases h
          · rename_i name hname
            split_ifs at h with hok
            cases h
            obtain ⟨rest,hroot,hslash⟩ := Option.bind_eq_some_iff.mp hr
            obtain ⟨p,hp,he⟩ := List.dropPrefix?_eq_some_iff.mp hroot
            obtain ⟨q,hq,hf⟩ := List.dropPrefix?_eq_some_iff.mp hslash
            obtain ⟨t,ht,hg⟩ := List.dropSuffix?_eq_some_iff.mp hname
            refine ⟨segment,name,?_,hid,hok⟩
            rw [hp,hq,(splitOnce_eq_some hs).1,ht,eq_of_beq he,eq_of_beq hf,eq_of_beq hg]
            simp
  · rintro ⟨segment,name,hpath,hid,hok⟩
    have hname : (name ++ ".pos".toList).dropSuffix? ".pos".toList = some name :=
      List.dropSuffix?_eq_some_iff.mpr ⟨_,rfl,beq_self_eq_true _⟩
    have hroot : (path.toList.dropPrefix? (workspacesRoot data_root)).bind
        (fun rest => rest.dropPrefix? ['/']) = some (segment ++ '/' :: (name ++ ".pos".toList)) := by
      rw [hpath,List.dropPrefix?_append_of_beq _ (beq_self_eq_true _)]
      simp [List.dropPrefix?]
    simp only [parsePlacement,hroot,splitOnce_append _ (slash_not_mem_segment hid),hid,hname,hok,
      if_true]

theorem fromStrRadix_digits (x y : Fin 16) :
    fromStrRadix 16 u8Max [hexDigit x.val,hexDigit y.val] = some (x.val*16+y.val) := by
  revert x y
  decide

theorem hexDigit_lower (x : Fin 16) : (hexDigit x.val).isUpper = false := by
  revert x
  decide

theorem hexDigit_utf8Size (x : Fin 16) : (hexDigit x.val).utf8Size = 1 := by
  revert x
  decide

theorem readBytes_hexText (k acc m : Nat) (rest : List Char) :
    readBytes acc (hexText (2*k) m ++ rest) = readBytes (acc*256^k+m%256^k) rest := by
  induction k generalizing m rest with
  | zero => simp [hexText,Nat.mod_one]
  | succ k ih =>
    have hhigh : m/16%16 < 16 := Nat.mod_lt _ (by decide)
    have hlow : m%16 < 16 := Nat.mod_lt _ (by decide)
    have hpair := fromStrRadix_digits ⟨m/16%16,hhigh⟩ ⟨m%16,hlow⟩
    have hdiv : m/16/16 = m/256 := by omega
    have hsum : (acc*256^k+m/256%256^k)*256+(m/16%16*16+m%16) = acc*256^(k+1)+m%256^(k+1) := by
      have hbyte : m/16%16*16+m%16 = m%256 := by omega
      have hmod : m%(256*256^k) = m%256+256*(m/256%256^k) := Nat.mod_mul
      rw [hbyte,pow_succ',hmod]
      ring
    have htext : hexText (2*(k+1)) m ++ rest =
        hexText (2*k) (m/256) ++ (hexDigit (m/16%16) :: hexDigit (m%16) :: rest) := by
      rw [show 2*(k+1) = 2*k+1+1 from by ring,hexText,hexText,hdiv]
      simp
    rw [htext,ih,readBytes]
    simp only [hexDigit_lower ⟨m/16%16,hhigh⟩,hexDigit_lower ⟨m%16,hlow⟩]
    simp only [Bool.false_eq_true,or_self,if_false]
    rw [hpair,← hsum]

theorem byteLen_hexText (w n : Nat) : byteLen (hexText w n) = w := by
  induction w generalizing n with
  | zero => rfl
  | succ w ih =>
    have hlast : (hexDigit (n%16)).utf8Size = 1 :=
      hexDigit_utf8Size ⟨n%16,Nat.mod_lt _ (by decide)⟩
    simp [byteLen,hexText,ih,hlast]

theorem posFoundationHex_toHex (workspace : WorkspaceId) :
    posFoundationHex workspace.toHex.toList = some workspace := by
  have hread := readBytes_hexText 16 0 workspace.num []
  have hlt : workspace.num < 256^16 := by
    have h := workspace.bits.isLt
    simp only [Id.num]
    norm_num at h ⊢
    exact h
  simp only [append_nil,Nat.zero_mul,Nat.zero_add,Nat.mod_eq_of_lt hlt,readBytes] at hread
  simp only [posFoundationHex,Id.toHex,String.toList_ofList,byteLen_hexText,ne_eq,not_true_eq_false,
    if_false]
  rw [hread]
  simp [Id.num]

theorem hexText_append (i j x y : Nat) (hy : y < 16^j) :
    hexText (i+j) (x*16^j+y) = hexText i x ++ hexText j y := by
  induction j generalizing y with
  | zero =>
    have h0 : y = 0 := by simpa using hy
    simp [hexText,h0]
  | succ j ih =>
    have hdiv : (x*16^(j+1)+y)/16 = x*16^j+y/16 := by
      rw [pow_succ,← mul_assoc]
      omega
    have hmod : (x*16^(j+1)+y)%16 = y%16 := by
      rw [pow_succ,← mul_assoc]
      omega
    have hlt : y/16 < 16^j := by
      rw [pow_succ] at hy
      omega
    rw [← Nat.add_assoc,hexText,hexText,hdiv,hmod,ih _ hlt,append_assoc]

theorem toDigit_hexDigit {c : Char} {d : Nat} (h : toDigit 16 c = some d)
    (hc : c.isUpper = false) : d < 16 ∧ c = hexDigit d := by
  have hupper : ¬(65 ≤ c.toNat ∧ c.toNat ≤ 90) := by
    intro hr
    have : c.isUpper = true := decide_eq_true hr
    simp [this] at hc
  have hof := Char.ofNat_toNat c
  simp only [toDigit] at h
  split_ifs at h with h₁ hlt h₂ hlt
  · cases h
    have h10 : c.toNat-48 < 10 := by omega
    refine ⟨hlt,?_⟩
    rw [hexDigit,if_pos h10,show 48+(c.toNat-48) = c.toNat from by omega,hof]
  · cases h
    have h10 : ¬ c.toNat-87 < 10 := by omega
    refine ⟨hlt,?_⟩
    rw [hexDigit,if_neg h10,show 87+(c.toNat-87) = c.toNat from by omega,hof]
  · simp_all

theorem readBytes_plain {acc n : Nat} {text : List Char} (h : readBytes acc text = some n)
    (hp : '+' ∉ text) : ∃ k m, m < 256^k ∧ n = acc*256^k+m ∧ text = hexText (2*k) m := by
  induction acc, text using readBytes.induct with
  | case1 acc =>
    simp only [readBytes,Option.some.injEq] at h
    exact ⟨0,0,by simp,by simp [h],rfl⟩
  | case2 acc c => simp [readBytes] at h
  | case3 acc a b rest hu => simp [readBytes,hu] at h
  | case4 acc a b rest hu hn => simp [readBytes,hu,hn] at h
  | case5 acc a b rest hu byte hb ih =>
    simp only [readBytes,hu,if_false,hb] at h
    simp only [not_or,Bool.not_eq_true] at hu
    simp only [mem_cons,not_or] at hp
    obtain ⟨k,m,hm,hn,ht⟩ := ih h hp.2.2
    rcases fromStrRadix_pair hb with ⟨ha,_⟩ | ⟨x,y,hx,hy,hxy⟩
    · exact absurd ha.symm hp.1
    · have hax := toDigit_hexDigit hx hu.1
      have hby := toDigit_hexDigit hy hu.2
      have hpow : (16 : Nat)^(2*k) = 256^k := by
        rw [pow_mul]
        norm_num
      refine ⟨k+1,byte*256^k+m,?_,?_,?_⟩
      · have hbyte : byte+1 ≤ 256 := by omega
        calc byte*256^k+m < byte*256^k+256^k := by omega
          _ = (byte+1)*256^k := by ring
          _ ≤ 256*256^k := Nat.mul_le_mul_right _ hbyte
          _ = 256^(k+1) := by ring
      · rw [hn]
        ring
      · have hsplit := hexText_append 2 (2*k) byte m (by rw [hpow]; exact hm)
        have hhead : hexText 2 byte = [a,b] := by
          rw [hax.2,hby.2,hxy]
          simp only [hexText,nil_append,cons_append]
          rw [show (x*16+y)/16%16 = x from by omega,show (x*16+y)%16 = y from by omega]
        rw [show 2*(k+1) = 2+2*k from by ring,← hpow,hsplit,hhead,ht]
        rfl

theorem posFoundationHex_plain
    (h : posFoundationHex segment = some workspace) (hp : '+' ∉ segment) :
    String.ofList segment = workspace.toHex := by
  unfold posFoundationHex at h
  split_ifs at h with hlen
  obtain ⟨n,hn,hid⟩ := Option.map_eq_some_iff.mp h
  obtain ⟨k,m,hm,hsum,htext⟩ := readBytes_plain hn hp
  have hk : k = 16 := by
    rw [htext,byteLen_hexText] at hlen
    omega
  subst hk
  have hnum : workspace.num = m := by
    norm_num at hm
    rw [← hid,hsum]
    simpa [Id.num] using hm
  rw [htext,Id.toHex,hnum]

end Placement

def Permitted (data_root : String) (control : ControlDb) (account : AccountId) (access : Access)
    (path : String) : Prop :=
  ∃ workspace held, InWorkspace data_root path workspace ∧
    control.roleInWorkspace workspace account = some held ∧ access.required.rank ≤ held.rank

section Permission
variable {faults : ControlFaults} {control : ControlDb} {data_root : String} {account : AccountId}
  {w : Wire} {text : String}

variable {access : Access} {path : String}

theorem authorizePath_permitted
    (h : authorizePath faults control data_root account path access = .ok ()) :
    Permitted data_root control account access path := by
  unfold authorizePath at h
  split at h
  · cases h
  · rename_i workspace hp
    split at h
    · cases h
    · split at h
      · cases h
      · rename_i held hr
        split_ifs at h with hlt
        exact ⟨workspace,held,parsePlacement_eq_ok.mp hp,hr,not_lt.mp hlt⟩

variable {τ : Type} {decode : String → Except String τ}

theorem authorized_named {path : τ → String}
    (h : (do
      let input ← parseInput decode text
      authorizePath faults control data_root account (path input) access) = .ok ()) :
    ∃ input, decode text = .ok input ∧
      Permitted data_root control account access (path input) := by
  cases hi : parseInput decode text with
  | error e =>
    rw [hi] at h
    cases h
  | ok input =>
    rw [hi] at h
    exact ⟨input,parseInput_eq_ok hi,authorizePath_permitted h⟩

def commandAccess : CommandName → Access
  | .projectOpen | .projectClose => .read
  | _ => .mutate

theorem mem_decoded_iff {paths : τ → List String} {input : τ} (h : decode text = .ok input) :
    path ∈ decoded decode paths text ↔ path ∈ paths input := by
  simp [decoded,h]

theorem permitted_named {path : τ → String}
    (h : (do
      let input ← parseInput decode text
      authorizePath faults control data_root account (path input) access) = .ok ()) :
    ∀ p ∈ decoded decode (fun i => [path i]) text,
      Permitted data_root control account access p := by
  obtain ⟨input,hi,hp⟩ := authorized_named h
  intro p hm
  rw [mem_decoded_iff hi,mem_singleton] at hm
  exact hm ▸ hp

variable {session : Session}

theorem authorizeCommand_permitted {command : CommandName}
    (h : authorizeCommand faults control data_root account w command text = .ok ())
    (hs : ∀ path ∈ session.paths, Permitted data_root control account .read path) :
    ∀ path ∈ commandPaths w session text command,
      Permitted data_root control account (commandAccess command) path := by
  cases command with
  | projectCreate | projectSeedSynthetic | projectOpen | runStart | runCancel | runPause
  | runResume => exact permitted_named h
  | projectExport =>
    simp only [authorizeCommand] at h
    cases hi : parseInput w.projectExport text with
    | error e =>
      rw [hi] at h
      cases h
    | ok input =>
      rw [hi] at h
      cases ha : authorizePath faults control data_root account input.path .mutate with
      | error e =>
        simp only [bind,Except.bind,ha] at h
        cases h
      | ok _ =>
        simp only [bind,Except.bind,ha] at h
        intro path hp
        rw [commandPaths,mem_decoded_iff (parseInput_eq_ok hi)] at hp
        simp only [mem_cons,not_mem_nil,or_false] at hp
        rcases hp with rfl | rfl
        · exact authorizePath_permitted ha
        · exact authorizePath_permitted h
  | projectClose =>
    obtain ⟨input,hi,hpath⟩ := authorized_named h
    intro path hp
    rw [commandPaths,mem_decoded_iff hi] at hp
    rcases mem_cons.mp hp with rfl | hp
    · exact hpath
    · exact hs path hp
  | modelsPull | ingestSubmit | ingestReprocess | transcriptCorrect | transcriptSpeakerName
  | transcriptSpeakerAssign => cases h

theorem authorizeQuery_permitted {query : QueryName}
    (h : authorizeQuery faults control data_root account w query text = .ok ())
    (hj : query ≠ .jobList)
    (hs : ∀ path ∈ session.paths, Permitted data_root control account .read path) :
    ∀ path ∈ queryPaths w session text query, Permitted data_root control account .read path := by
  cases query with
  | projectInspect | projectVerify => exact permitted_named h
  | costRollup =>
    simp only [authorizeQuery] at h
    cases hi : parseInput w.costRollup text with
    | error e =>
      rw [hi] at h
      cases h
    | ok input =>
      rw [hi] at h
      intro path hp
      rw [queryPaths,mem_decoded_iff (parseInput_eq_ok hi)] at hp
      simp only [bind,Except.bind] at h
      cases hpath : input.path with
      | none => exact hs path (by simpa [hpath] using hp)
      | some named =>
        simp only [hpath] at h
        simp only [hpath,mem_singleton] at hp
        exact hp ▸ authorizePath_permitted h
  | capabilitySnapshot | projectList | health => simp [queryPaths]
  | jobList => exact absurd rfl hj
  | cronPreview | evidenceList | sourceHealth | transcriptGet => cases h

end Permission

end ProjectOS.Server
