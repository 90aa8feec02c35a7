import ProjectOS.Log.Recovery

namespace ProjectOS.Log
open Lib Domain

inductive Call where
  | append (request : AppendRequest)
  | appendBatch (requests : List AppendRequest)
  | appendAtHead (expectedHead : Nat) (request : AppendRequest)
  | appendBatchAtHead (expectedHead : Nat) (requests : List AppendRequest)

namespace Call

def requests : Call → List AppendRequest
  | .append request | .appendAtHead _ request => [request]
  | .appendBatch requests | .appendBatchAtHead _ requests => requests

def expectedHead : Call → Option Nat
  | .append _ | .appendBatch _ => none
  | .appendAtHead expected _ | .appendBatchAtHead expected _ => some expected

def run (B : Backend) (R : ProjectionRegistry) (cfg : LogConfig) (clock : Nat) (W : Weather)
    (log : ProjectLog) : Call → Except Failure (List Nat) × ProjectLog
  | .append request =>
    let done := log.append B R cfg request clock W
    (done.1.map (fun seq => [seq]),done.2)
  | .appendBatch requests => log.appendBatch B R cfg requests clock W
  | .appendAtHead expected request =>
    let done := log.appendAtHead B R cfg expected request clock W
    (done.1.map (fun seq => [seq]),done.2)
  | .appendBatchAtHead expected requests =>
    log.appendBatchAtHead B R cfg expected requests clock W

end Call

/-- Appending calls, and the calls that bring the projections up to date. -/
inductive Action where
  | call (c : Call) (clock : Nat)
  | openLog
  | rebuild
  | restore

structure Move where
  handle : Nat
  action : Action
  weather : Weather

structure Project where
  db : Db
  stopped : Nat → Bool

namespace Project
variable (B : Backend) (R : ProjectionRegistry) (cfg : LogConfig)

def log (p : Project) (handle : Nat) : ProjectLog := ⟨p.db,p.stopped handle⟩

def act (p : Project) (m : Move) : ProjectLog :=
  match m.action with
  | .call c clock => (c.run B R cfg clock m.weather (p.log m.handle)).2
  | .openLog => (ProjectLog.openLog B R cfg m.weather p.db).2
  | .rebuild => ((p.log m.handle).rebuild B R cfg m.weather).2
  | .restore => ((p.log m.handle).restoreFromSnapshotAndTail B R m.weather).2

def step (p : Project) (m : Move) : Project :=
  ⟨(p.act B R cfg m).db,Function.update p.stopped m.handle (p.act B R cfg m).stopped⟩

def run (p : Project) (ms : List Move) : Project := ms.foldl (step B R cfg) p

def fresh : Project := ⟨(ProjectLog.openLog B R cfg .calm Db.empty).2.db,fun _ => false⟩

end Project

section
variable {B : Backend} {R : ProjectionRegistry} {cfg : LogConfig}

theorem writeTransaction_cases {α : Type} (context : String) (W : Weather) (p : Tx α)
    (log : ProjectLog) :
    (∃ f, (log.writeTransaction B context W p).1 = .error f ∧
      (log.writeTransaction B context W p).2.db = log.db) ∨
    (∃ a, (log.writeTransaction B context W p).1 = .ok a ∧
      p.execute (Db.exec B) log.db = .ok (a,(log.writeTransaction B context W p).2.db)) := by
  rw [ProjectLog.writeTransaction]
  split
  · exact Or.inl ⟨_,rfl,rfl⟩
  · split
    · exact Or.inl ⟨_,rfl,rfl⟩
    · dsimp only
      generalize hdone : Prog.transaction (Db.exec B)
        (fun n => (W.statements n).map Trouble.failure)
        (W.commits.map (StoreFault.failure context)) p log.db = done
      cases hres : done.1 with
      | error f =>
        rw [← hdone] at hres
        refine Or.inl ⟨f,rfl,?_⟩
        rw [← hdone]
        exact Prog.transaction_error hres
      | ok a =>
        rw [← hdone] at hres
        refine Or.inr ⟨a,rfl,?_⟩
        rw [← hdone]
        exact Prog.transaction_ok hres

theorem writeTransaction_calm {α : Type} {context : String} {p : Tx α} {log : ProjectLog}
    (h : log.stopped = false) :
    (log.writeTransaction B context .calm p).1 = (p.execute (Db.exec B) log.db).map Prod.fst := by
  simp only [ProjectLog.writeTransaction,h,Bool.false_eq_true,if_false,Weather.calm]
  exact Prog.transaction_calm (fun _ => rfl)

theorem appendBatchInner_cases (expectedHead : Option Nat) (requests : List AppendRequest)
    (clock : Nat) (W : Weather) {log : ProjectLog} (h : Sound log.db) :
    (∃ f, (log.appendBatchInner B R cfg expectedHead requests clock W).1 = .error f ∧
      (log.appendBatchInner B R cfg expectedHead requests clock W).2.db = log.db) ∨
    (requests = [] ∧ log.appendBatchInner B R cfg expectedHead requests clock W = (.ok [],log)) ∨
    (requests ≠ [] ∧
      (log.appendBatchInner B R cfg expectedHead requests clock W).1 =
        .ok (seqsAfter log.db.head requests) ∧
      requests.forM validateRequest = .ok () ∧
      (∀ expected ∈ expectedHead, log.db.head = expected) ∧
      requests.foldlM (Db.extend B R cfg.snapshotCadenceEvents clock) log.db =
        .ok (log.appendBatchInner B R cfg expectedHead requests clock W).2.db) := by
  rw [ProjectLog.appendBatchInner]
  split
  · rename_i hempty
    exact Or.inr (Or.inl ⟨List.isEmpty_iff.mp hempty,rfl⟩)
  · rename_i hempty
    split
    · exact Or.inl ⟨_,rfl,rfl⟩
    · rename_i hvalid
      rcases writeTransaction_cases (B := B) "append events" W
        (appendEvents B R cfg expectedHead requests clock) log with hfail | hok
      · exact Or.inl hfail
      · obtain ⟨seqs,hseqs,hexec⟩ := hok
        refine Or.inr (Or.inr ?_)
        rw [execute_appendEvents cfg expectedHead requests clock h.current] at hexec
        split at hexec
        · exact absurd hexec (by simp)
        · rename_i hhead
          obtain ⟨db',hfold,hpair⟩ := ok_of_map hexec
          simp only [Prod.mk.injEq] at hpair
          refine ⟨fun he => hempty (by simp [he]),by rw [hseqs,hpair.1],hvalid,?_,by rw [hfold,hpair.2]⟩
          intro expected he
          obtain rfl := Option.mem_def.mp he
          simpa using hhead

theorem appendBatchInner_calm {expectedHead : Option Nat} {requests : List AppendRequest}
    {clock : Nat} {log : ProjectLog} (h : Sound log.db) (hlive : log.stopped = false)
    (hne : requests ≠ []) :
    (∃ seqs, (log.appendBatchInner B R cfg expectedHead requests clock .calm).1 = .ok seqs) ↔
      (∀ expected ∈ expectedHead, log.db.head = expected) ∧
      ValidBatch B R cfg.snapshotCadenceEvents clock log.db requests := by
  have hempty : requests.isEmpty = false := by simpa using hne
  rw [ProjectLog.appendBatchInner,hempty]
  simp only [Bool.false_eq_true,if_false]
  split
  · rename_i e hinvalid
    constructor
    · rintro ⟨seqs,hseqs⟩
      exact absurd hseqs (by simp)
    · rintro ⟨-,hvalid⟩
      exact absurd (hinvalid.symm.trans hvalid.bounded) (by simp)
  · rename_i hbounded
    rw [writeTransaction_calm hlive,execute_appendEvents cfg expectedHead requests clock h.current]
    have hiff : (∃ db', requests.foldlM (Db.extend B R cfg.snapshotCadenceEvents clock) log.db =
        .ok db') ↔ _ := extendAll_iff h
    split
    · rename_i hhead
      constructor
      · rintro ⟨seqs,hseqs⟩
        exact absurd hseqs (by simp [Except.map])
      · rintro ⟨hall,-⟩
        cases expectedHead with
        | none => simp at hhead
        | some expected =>
          have heq := hall expected rfl
          simp [heq] at hhead
    · rename_i hhead
      have hall : ∀ expected ∈ expectedHead, log.db.head = expected := by
        intro expected he
        obtain rfl := Option.mem_def.mp he
        simpa using hhead
      constructor
      · rintro ⟨seqs,hseqs⟩
        obtain ⟨done,hdone,-⟩ := ok_of_map hseqs
        obtain ⟨db',hfold,-⟩ := ok_of_map hdone
        obtain ⟨hroom,haccepted⟩ := hiff.mp ⟨db',hfold⟩
        exact ⟨hall,hbounded,hroom,haccepted⟩
      · rintro ⟨-,hvalid⟩
        obtain ⟨db',hfold⟩ := hiff.mpr ⟨hvalid.room,hvalid.accepted⟩
        rw [hfold]
        exact ⟨_,rfl⟩

theorem call_run_eq (c : Call) (clock : Nat) (W : Weather) {log : ProjectLog} (h : Sound log.db) :
    c.run B R cfg clock W log =
      log.appendBatchInner B R cfg c.expectedHead c.requests clock W := by
  have hsingle : ∀ (expectedHead : Option Nat) (request : AppendRequest),
      (ProjectLog.lastSeq (log.appendBatchInner B R cfg expectedHead [request] clock W).1).map
        (fun seq => [seq]) = (log.appendBatchInner B R cfg expectedHead [request] clock W).1 := by
    intro expectedHead request
    rcases @appendBatchInner_cases B R cfg expectedHead [request] clock W log h with
      hfail | hempty | hok
    · obtain ⟨f,hf,-⟩ := hfail
      rw [hf]
      rfl
    · exact absurd hempty.1 (by simp)
    · rw [hok.2.1]
      rfl
  cases c with
  | append request => exact Prod.ext (hsingle none request) rfl
  | appendBatch | appendBatchAtHead => rfl
  | appendAtHead expected request => exact Prod.ext (hsingle (some expected) request) rfl

theorem recover_keeps {P : Db → Prop} {context : String} {W : Weather} {p : Tx Unit}
    (log : ProjectLog) (h : P log.db)
    (hp : ∀ db', Prog.effect (Db.exec B) p log.db = .ok db' → P db') :
    P (log.recover B context W p).2.db := by
  have hdb : (log.recover B context W p).2.db = (log.writeTransaction B context W p).2.db := by
    rw [ProjectLog.recover]
    split
    · rfl
    · rfl
  rw [hdb]
  rcases writeTransaction_cases (B := B) context W p log with hfail | hok
  · obtain ⟨f,-,hsame⟩ := hfail
    rw [hsame]
    exact h
  · obtain ⟨a,-,hexec⟩ := hok
    refine hp _ ?_
    rw [Prog.effect,hexec]
    rfl

/-- What it takes for a property to survive every committed transaction, appends
being held to a condition on their clock. -/
structure Maintained (B : Backend) (R : ProjectionRegistry) (cfg : LogConfig)
    (clockOk : Nat → Prop) (P : Db → Prop) : Prop where
  appends : ∀ tsMs db db' request, clockOk tsMs → Sound db → P db →
    db.extend B R cfg.snapshotCadenceEvents tsMs request = .ok db' → P db'
  opens : ∀ db db', Sound db → P db → Prog.effect (Db.exec B)
    (openProjections B R (some cfg.snapshotCadenceEvents)) db = .ok db' → P db'
  rebuilds : ∀ db db', Sound db → P db → Prog.effect (Db.exec B)
    (rebuildProjections B R (some cfg.snapshotCadenceEvents)) db = .ok db' → P db'
  restores : ∀ db db', Sound db → P db →
    Prog.effect (Db.exec B) (restoreSnapshotAndTail B R) db = .ok db' → P db'

def Move.clockOk (clockOk : Nat → Prop) (m : Move) : Prop :=
  match m.action with
  | .call _ clock => clockOk clock
  | .openLog | .rebuild | .restore => True

theorem sound_empty : Sound Db.empty :=
  ⟨⟨by simp [Db.empty,Table.empty],by decide⟩,by simp [deviceRows,Db.empty,Table.empty],
    by simp [deviceRows,Db.empty,Table.empty,Table.get?,Table.lookupRow,nonNegative],rfl⟩

theorem maintained_sound (B : Backend) (R : ProjectionRegistry) (cfg : LogConfig) :
    Maintained B R cfg (fun _ => True) Sound where
  appends := fun _ _ _ _ _ h _ hext => (extend_sound h hext).1
  opens := fun _ _ h _ hdb => (openProjections_recovered R h.contiguous h.readable hdb).sound h
  rebuilds := fun _ _ h _ hdb => (rebuildProjections_recovered R h.contiguous h.readable hdb).sound h
  restores := fun _ _ h _ hdb => (restore_recovered R h.contiguous h.readable hdb).sound h

section
variable {clockOk : Nat → Prop} {P : Db → Prop}

theorem Maintained.extendAll (M : Maintained B R cfg clockOk P) {tsMs : Nat} (hclock : clockOk tsMs)
    {requests : List AppendRequest} {db db' : Db} (h : Sound db) (hP : P db)
    (hext : requests.foldlM (Db.extend B R cfg.snapshotCadenceEvents tsMs) db = .ok db') : P db' := by
  have hboth : Sound db' ∧ P db' := by
    refine foldlM_invariant (P := fun x => Sound x ∧ P x) ?_ ⟨h,hP⟩ hext
    intro s request t hs hone
    exact ⟨(extend_sound hs.1 hone).1,M.appends tsMs s t request hclock hs.1 hs.2 hone⟩
  exact hboth.2

variable {p : Project}

theorem Maintained.step (M : Maintained B R cfg clockOk P) {m : Move}
    (hm : m.clockOk clockOk) (h : Sound p.db) (hP : P p.db) : P (p.step B R cfg m).db := by
  rw [Project.step,Project.act]
  rw [Move.clockOk] at hm
  cases haction : m.action with
  | call c clock =>
    rw [haction] at hm
    dsimp only at hm ⊢
    rw [@call_run_eq B R cfg c clock m.weather (p.log m.handle) h]
    rcases @appendBatchInner_cases B R cfg c.expectedHead c.requests clock m.weather
      (p.log m.handle) h with hfail | hempty | hok
    · obtain ⟨f,-,hsame⟩ := hfail
      rw [hsame]
      exact hP
    · rw [hempty.2]
      exact hP
    · exact M.extendAll hm h hP hok.2.2.2.2
  | openLog => exact recover_keeps ⟨p.db,false⟩ hP (fun db' => M.opens p.db db' h hP)
  | rebuild => exact recover_keeps (p.log m.handle) hP (fun db' => M.rebuilds p.db db' h hP)
  | restore => exact recover_keeps (p.log m.handle) hP (fun db' => M.restores p.db db' h hP)

theorem step_sound {m : Move} (h : Sound p.db) : Sound (p.step B R cfg m).db := by
  refine (maintained_sound B R cfg).step ?_ h h
  rw [Move.clockOk]
  split <;> trivial

theorem run_sound (h : Sound p.db) (ms : List Move) :
    Sound (p.run B R cfg ms).db := by
  induction ms generalizing p with
  | nil => exact h
  | cons m rest ih => exact ih (step_sound h)

theorem Maintained.run (M : Maintained B R cfg clockOk P) {ms : List Move}
    (hms : ∀ m ∈ ms, m.clockOk clockOk) (h : Sound p.db) (hP : P p.db) :
    P (p.run B R cfg ms).db := by
  induction ms generalizing p with
  | nil => exact hP
  | cons m rest ih =>
    exact ih (fun x hx => hms x (by simp [hx])) (step_sound h) (M.step (hms m (by simp)) h hP)

end

theorem fresh_sound (B : Backend) (R : ProjectionRegistry) (cfg : LogConfig) :
    Sound (Project.fresh B R cfg).db :=
  recover_keeps ⟨Db.empty,false⟩ sound_empty
    (fun _ => (maintained_sound B R cfg).opens Db.empty _ sound_empty sound_empty)

/-- The log as its readers rely on it, and what the next append may do to it. -/
structure KeepsLog (B : Backend) (R : ProjectionRegistry) (cfg : LogConfig) (p : Project) : Prop where
  seqs : ∀ (i : Nat) r, p.db.events.rows[i]? = some r → r.1 = i+1
  lamports : ∀ device (i : Nat) r,
    (deviceRows p.db.events device)[i]? = some r → r.2.lamport = i+1
  current : p.db.applied = p.db.head
  refused : ∀ handle (c : Call) clock W f,
    (c.run B R cfg clock W (p.log handle)).1 = .error f →
      (c.run B R cfg clock W (p.log handle)).2.db = p.db
  taken : ∀ handle (c : Call) clock W seqs,
    (c.run B R cfg clock W (p.log handle)).1 = .ok seqs →
      seqs = seqsAfter p.db.head c.requests ∧
      AddsRows p.db.events (c.run B R cfg clock W (p.log handle)).2.db.events.rows c.requests clock
  expected : ∀ handle clock W head request seqs,
    ((Call.appendAtHead head request).run B R cfg clock W (p.log handle)).1 = .ok seqs →
      p.db.head = head
  conditional : ∀ handle clock head request,
    (∃ seqs, ((Call.appendAtHead head request).run B R cfg clock .calm (p.log handle)).1 = .ok seqs) ↔
      p.stopped handle = false ∧ p.db.head = head ∧
        ValidBatch B R cfg.snapshotCadenceEvents clock p.db [request]

theorem stopped_refuses {expectedHead : Option Nat} {request : AppendRequest} {clock : Nat}
    {W : Weather} {log : ProjectLog} (h : log.stopped = true) :
    ∃ f, (log.appendBatchInner B R cfg expectedHead [request] clock W).1 = .error f := by
  rw [ProjectLog.appendBatchInner]
  simp only [List.isEmpty_cons,Bool.false_eq_true,if_false]
  split
  · exact ⟨_,rfl⟩
  · rw [ProjectLog.writeTransaction,h]
    exact ⟨_,rfl⟩

theorem sound_keepsLog {p : Project} (h : Sound p.db) : KeepsLog B R cfg p := by
  refine ⟨h.contiguous.seqs,h.lamports,h.current,?_,?_,?_,?_⟩
  · intro handle c clock W f hf
    rw [@call_run_eq B R cfg c clock W (p.log handle) h] at hf ⊢
    rcases @appendBatchInner_cases B R cfg c.expectedHead c.requests clock W (p.log handle) h with
      hfail | hempty | hok
    · exact hfail.choose_spec.2
    · rw [hempty.2] at hf
      exact absurd hf (by simp)
    · rw [hok.2.1] at hf
      exact absurd hf (by simp)
  · intro handle c clock W seqs hseqs
    rw [@call_run_eq B R cfg c clock W (p.log handle) h] at hseqs ⊢
    rcases @appendBatchInner_cases B R cfg c.expectedHead c.requests clock W (p.log handle) h with
      hfail | hempty | hok
    · rw [hfail.choose_spec.1] at hseqs
      exact absurd hseqs (by simp)
    · rw [hempty.2] at hseqs ⊢
      rw [hempty.1]
      obtain rfl := Except.ok.inj hseqs
      exact ⟨rfl,[],by simp [Project.log],rfl,by simp⟩
    · rw [hok.2.1] at hseqs
      obtain rfl := Except.ok.inj hseqs
      exact ⟨rfl,(extendAll_sound h hok.2.2.2.2).2⟩
  · intro handle clock W head request seqs hseqs
    rw [@call_run_eq B R cfg _ clock W (p.log handle) h] at hseqs
    rcases @appendBatchInner_cases B R cfg (some head) [request] clock W (p.log handle) h with
      hfail | hempty | hok
    · exact absurd (hfail.choose_spec.1.symm.trans hseqs) (by simp)
    · exact absurd hempty.1 (by simp)
    · exact hok.2.2.2.1 head rfl
  · intro handle clock head request
    rw [@call_run_eq B R cfg _ clock .calm (p.log handle) h]
    by_cases hstopped : p.stopped handle = true
    · obtain ⟨f,hf⟩ := @stopped_refuses B R cfg (some head) request clock .calm (p.log handle)
        hstopped
      constructor
      · rintro ⟨seqs,hseqs⟩
        exact absurd (hf.symm.trans hseqs) (by simp)
      · rintro ⟨hlive,-⟩
        exact absurd (hstopped.symm.trans hlive) (by simp)
    · have hlive : p.stopped handle = false := by simpa using hstopped
      have hcalm := @appendBatchInner_calm B R cfg (some head) [request] clock (p.log handle) h
        hlive (by simp)
      refine hcalm.trans ?_
      simp [hlive,Project.log]

/-- In every run of appends, reopenings, rebuilds and restores by any handles, whatever
fails on the way: sequence numbers without a gap, lamport values that count a device's
events, current projections, failed calls that change nothing, and conditional appends
that go through exactly at the expected head. -/
theorem runs_keep_log (B : Backend) (R : ProjectionRegistry) (cfg : LogConfig) (ms : List Move) :
    KeepsLog B R cfg ((Project.fresh B R cfg).run B R cfg ms) :=
  sound_keepsLog (run_sound (fresh_sound B R cfg) ms)

end
end ProjectOS.Log
