import ProjectOS.Agents.Decisions

/-! The write-ahead ledger. A step is committed before its effect and its
checkpoint, and the two tables that say so are read as one abstract tally. -/

namespace ProjectOS.Agents
open Lib Lib.Optimistic Domain RunHarness List Function

/-- What the ledger reads of the Run tables: committed and checkpointed counts, each
step's receipt and checkpoint, and its receipts in the log. -/
structure Tally where
  counts : RunId → Option (Int × Int)
  flags : StepKey → Option (Bool × Bool)
  receipts : StepKey → Nat

inductive TallyEvent where
  | started (run_id : RunId)
  | committed (key : StepKey)
  | effect (key : StepKey)
  | checkpoint (key : StepKey)
  | other

def Tally.Step (t t' : Tally) : TallyEvent → Prop
  | .started r => t.counts r = none ∧ t' = { t with counts := Function.update t.counts r (some (0,0)) }
  | .committed k => ∃ n m, t.counts k.run_id = some (n,m) ∧ t.flags k = none ∧
      t' = { t with
        counts := Function.update t.counts k.run_id (some (n+1,m)),
        flags := Function.update t.flags k (some (false,false)) }
  | .effect k => ∃ c, t.flags k = some (false,c) ∧
      t' = { t with
        flags := Function.update t.flags k (some (true,c)),
        receipts := Function.update t.receipts k (t.receipts k+1) }
  | .checkpoint k => ∃ e n m, t.counts k.run_id = some (n,m) ∧ t.flags k = some (e,false) ∧
      t' = { t with
        counts := Function.update t.counts k.run_id (some (n,m+1)),
        flags := Function.update t.flags k (some (e,true)) }
  | .other => t' = t

/-- Steps `0..n-1` are committed, the first `m` have their one receipt and
checkpoint. -/
structure Tally.Ledger (t : Tally) (r : RunId) (n m : Nat) : Prop where
  counts : t.counts r = some ((n : Int),(m : Int))
  gap : m ≤ n ∧ n ≤ m+1
  flags : ∀ i, t.flags ⟨r,i⟩ = if i < n then some (decide (i < m),decide (i < m)) else none
  receipts : ∀ i, t.receipts ⟨r,i⟩ = if i < m then 1 else 0

structure Tally.Absent (t : Tally) (r : RunId) : Prop where
  counts : t.counts r = none
  flags : ∀ i, t.flags ⟨r,i⟩ = none
  receipts : ∀ i, t.receipts ⟨r,i⟩ = 0

def Tally.Ok (t : Tally) : Prop := ∀ r, t.Absent r ∨ ∃ n m, t.Ledger r n m

section Abstract
variable {t t' u : Tally} {r : RunId} {n m : Nat}

theorem Tally.Ledger.congr (h : t.Ledger r n m) (hc : t'.counts r = t.counts r)
    (hf : ∀ i, t'.flags ⟨r,i⟩ = t.flags ⟨r,i⟩) (hr : ∀ i, t'.receipts ⟨r,i⟩ = t.receipts ⟨r,i⟩) :
    t'.Ledger r n m where
  counts := hc.trans h.counts
  gap := h.gap
  flags i := (hf i).trans (h.flags i)
  receipts i := (hr i).trans (h.receipts i)

theorem Tally.Absent.congr (h : t.Absent r) (hc : t'.counts r = t.counts r)
    (hf : ∀ i, t'.flags ⟨r,i⟩ = t.flags ⟨r,i⟩) (hr : ∀ i, t'.receipts ⟨r,i⟩ = t.receipts ⟨r,i⟩) :
    t'.Absent r where
  counts := hc.trans h.counts
  flags i := (hf i).trans (h.flags i)
  receipts i := (hr i).trans (h.receipts i)

theorem Tally.Ok.change (h : t.Ok) (hr : t'.Absent r ∨ ∃ n m, t'.Ledger r n m)
    (hc : ∀ q, q ≠ r → t'.counts q = t.counts q)
    (hf : ∀ q i, q ≠ r → t'.flags ⟨q,i⟩ = t.flags ⟨q,i⟩)
    (hrec : ∀ q i, q ≠ r → t'.receipts ⟨q,i⟩ = t.receipts ⟨q,i⟩) : t'.Ok := by
  intro q
  by_cases hq : q = r
  · rw [hq]
    exact hr
  · rcases h q with ha | ⟨n,m,hl⟩
    · exact Or.inl (ha.congr (hc q hq) (fun i => hf q i hq) (fun i => hrec q i hq))
    · exact Or.inr ⟨n,m,hl.congr (hc q hq) (fun i => hf q i hq) (fun i => hrec q i hq)⟩

variable {k : StepKey}

theorem key_ne {q : RunId} {i : Nat} (h : q ≠ k.run_id) : (⟨q,i⟩ : StepKey) ≠ k :=
  fun he => h (by rw [← he])

theorem Tally.Ok.started (h : t.Ok) (hs : t.Step t' (.started r)) : t'.Ok := by
  obtain ⟨hnone,rfl⟩ := hs
  refine h.change (r := r) (Or.inr ⟨0,0,?_⟩) (fun q hq => update_of_ne hq ..)
    (fun _ _ _ => rfl) (fun _ _ _ => rfl)
  rcases h r with ha | ⟨n,m,hl⟩
  · exact ⟨by simp,by simp,by simp [ha.flags],by simp [ha.receipts]⟩
  · rw [hl.counts] at hnone
    cases hnone

theorem Tally.Ok.committed (h : t.Ok) (hs : t.Step t' (.committed k))
    (hle : ∀ n m, t.counts k.run_id = some (n,m) → (k.step_index : Int) ≤ m) : t'.Ok := by
  obtain ⟨n,m,hcounts,hflags,rfl⟩ := hs
  have hle := hle n m hcounts
  rcases h k.run_id with ha | ⟨a,b,hl⟩
  · rw [ha.counts] at hcounts
    cases hcounts
  rw [hl.counts] at hcounts
  cases hcounts
  have hidx : ¬ k.step_index < a := by
    intro hlt
    have hk := hl.flags k.step_index
    rw [hflags,if_pos hlt] at hk
    cases hk
  have hgap := hl.gap
  have ha : k.step_index = a := by omega
  have hb : b = a := by omega
  subst hb
  refine h.change (r := k.run_id) (Or.inr ⟨b+1,b,?_⟩) (fun q hq => update_of_ne hq ..)
    (fun q i hq => update_of_ne (key_ne hq) ..) (fun _ _ _ => rfl)
  refine ⟨by simp,by omega,?_,hl.receipts⟩
  intro i
  by_cases hi : i = b
  · have hk : (⟨k.run_id,b⟩ : StepKey) = k := by rw [← ha]
    simp [hk,hi]
  · have hk : (⟨k.run_id,i⟩ : StepKey) ≠ k := fun he => hi (by rw [← ha,← he])
    simp only [update_of_ne hk,hl.flags i]
    by_cases hlt : i < b
    · rw [if_pos hlt,if_pos (by omega)]
    · rw [if_neg hlt,if_neg (by omega)]

theorem Tally.Ok.recorded (h : t.Ok) (he : t.Step u (.effect k)) (hc : u.Step t' (.checkpoint k)) :
    t'.Ok ∧ ∃ m, t.Ledger k.run_id (m+1) m ∧ k.step_index = m ∧ t'.Ledger k.run_id (m+1) (m+1) := by
  obtain ⟨c,hflags,rfl⟩ := he
  obtain ⟨e,n,m,hcounts,hflags',rfl⟩ := hc
  rcases h k.run_id with ha | ⟨a,b,hl⟩
  · have hk := ha.flags k.step_index
    rw [hflags] at hk
    cases hk
  have hk := hl.flags k.step_index
  rw [hflags] at hk
  have hcounts' := hl.counts.symm.trans hcounts
  cases hcounts'
  have hgap := hl.gap
  by_cases hlt : k.step_index < a
  · rw [if_pos hlt] at hk
    simp only [Option.some.injEq,Prod.mk.injEq,false_eq_decide_iff] at hk
    have hb : k.step_index = b := by omega
    have ha : a = b+1 := by omega
    subst ha
    have hnew : Tally.Ledger
        ⟨Function.update t.counts k.run_id (some (((b+1 : Nat) : Int),(b : Int)+1)),
          Function.update (Function.update t.flags k (some (true,c))) k (some (e,true)),
          Function.update t.receipts k (t.receipts k+1)⟩ k.run_id (b+1) (b+1) := by
      refine ⟨by simp,by omega,?_,?_⟩
      · intro i
        by_cases hi : i = b
        · have hki : (⟨k.run_id,b⟩ : StepKey) = k := by rw [← hb]
          simp only [update_self,Option.some.injEq,Prod.mk.injEq] at hflags'
          simp [hki,hi,hflags'.1.symm]
        · have hki : (⟨k.run_id,i⟩ : StepKey) ≠ k := fun he => hi (by rw [← hb,← he])
          simp only [update_of_ne hki,hl.flags i]
          by_cases hlt' : i < b
          · simp [hlt',Nat.lt_succ_of_lt hlt']
          · rw [if_neg (by omega),if_neg (by omega)]
      · intro i
        by_cases hi : i = b
        · have hki : (⟨k.run_id,b⟩ : StepKey) = k := by rw [← hb]
          have hz := hl.receipts b
          rw [if_neg (by omega),hki] at hz
          simp [hi,hki,hz]
        · have hki : (⟨k.run_id,i⟩ : StepKey) ≠ k := fun he => hi (by rw [← hb,← he])
          simp only [update_of_ne hki,hl.receipts i]
          by_cases hlt' : i < b
          · rw [if_pos hlt',if_pos (by omega)]
          · rw [if_neg hlt',if_neg (by omega)]
    refine ⟨h.change (r := k.run_id) (Or.inr ⟨b+1,b+1,hnew⟩) ?_ ?_ ?_,b,hl,hb,hnew⟩
    · intro q hq
      exact update_of_ne hq ..
    · intro q i hq
      simp only [update_of_ne (key_ne hq)]
    · intro q i hq
      exact update_of_ne (key_ne hq) ..
  · rw [if_neg hlt] at hk
    cases hk

end Abstract

section Refinement

def isReceipt (k : StepKey) : RunEvent → Bool
  | .toolEffectRecorded run_id step_index _ _ _ _ => decide (k = ⟨run_id,step_index.toNat⟩)
  | _ => false

def RunRow.counts (row : RunRow) : Int × Int :=
  (row.committed_step_count,row.checkpointed_step_count)

def StepRow.flags (row : StepRow) : Bool × Bool :=
  (row.effect_recorded_seq.isSome,row.checkpoint_seq.isSome)

def tally (db : RunDb) : Tally where
  counts := db.runs.column RunRow.counts
  flags := db.steps.column StepRow.flags
  receipts k := db.log.countP (isReceipt k)

def tallyEvent : RunEvent → TallyEvent
  | .startedV1 run_id _ _ => .started run_id
  | .startedV2 body => .started body.run_id
  | .stepCommittedV1 run_id step_index _ => .committed ⟨run_id,step_index.toNat⟩
  | .stepCommittedV2 run_id step_index _ _ _ _ _ => .committed ⟨run_id,step_index.toNat⟩
  | .toolEffectRecorded run_id step_index _ _ _ _ => .effect ⟨run_id,step_index.toNat⟩
  | .checkpointSaved run_id step_index _ _ => .checkpoint ⟨run_id,step_index.toNat⟩
  | _ => .other

variable {runs runs' : Table RunId RunRow} {steps steps' : Table StepKey StepRow} {r : RunId}

theorem exec_insert_counts {row : RunRow} (h : (RunWrite.insert r row).exec runs = .ok runs') :
    runs.column RunRow.counts r = none ∧
      runs'.column RunRow.counts = Function.update (runs.column RunRow.counts) r (some (RunRow.counts row)) := by
  obtain ⟨hnone,rfl⟩ := insertRow_ok h
  exact ⟨by simp [Table.column,hnone],Table.column_put _ _ _ _⟩

variable {operation : String} {f : RunRow → RunRow}

theorem exec_update_counts (h : (RunWrite.updateOne r operation f).exec runs = .ok runs') :
    ∃ row, runs.get? r = some row ∧ runs.column RunRow.counts r = some (RunRow.counts row) ∧
      runs'.column RunRow.counts =
        Function.update (runs.column RunRow.counts) r (some (RunRow.counts (f row))) := by
  obtain ⟨row,hrow,rfl⟩ := updateOne_ok h
  exact ⟨row,hrow,by simp [Table.column,hrow],Table.column_put _ _ _ _⟩

theorem exec_update_counts_same (h : (RunWrite.updateOne r operation f).exec runs = .ok runs')
    (hf : ∀ row, RunRow.counts (f row) = RunRow.counts row) :
    runs'.column RunRow.counts = runs.column RunRow.counts := by
  obtain ⟨row,hrow,rfl⟩ := updateOne_ok h
  exact Table.column_put_same _ hrow (hf row)

variable {k : StepKey} {guard : StepRow → Bool}

theorem exec_whenNull_flags {f : StepRow → StepRow}
    (h : (StepWrite.updateOneWhenNull k guard f).exec steps = .ok steps') :
    ∃ row, steps.get? k = some row ∧ guard row = false ∧ steps' = steps.put k (f row) := by
  obtain ⟨row,hrow,hguard,rfl⟩ := updateOneWhenNull_ok h
  refine ⟨row,hrow,?_,rfl⟩
  cases hg : guard row with
  | false => rfl
  | true => simp [hg] at hguard

theorem exec_whenNull_flags_same {f : StepRow → StepRow}
    (h : (StepWrite.updateOneWhenNull k guard f).exec steps = .ok steps')
    (hf : ∀ row, StepRow.flags (f row) = StepRow.flags row) :
    steps'.column StepRow.flags = steps.column StepRow.flags := by
  obtain ⟨row,hrow,_,rfl⟩ := exec_whenNull_flags h
  exact Table.column_put_same _ hrow (hf row)

variable {e : RunEvent}

theorem countP_snoc_other {db : RunDb} (h : ∀ k, isReceipt k e = false) :
    (fun k => (db.log ++ [e]).countP (isReceipt k)) = fun k => db.log.countP (isReceipt k) := by
  funext k
  simp [countP_append,h k]

theorem tally_other {db db' : RunDb} (hlog : db'.log = db.log ++ [e])
    (he : ∀ k, isReceipt k e = false)
    (hruns : db'.runs.column RunRow.counts = db.runs.column RunRow.counts)
    (hsteps : db'.steps.column StepRow.flags = db.steps.column StepRow.flags) :
    tally db' = tally db := by
  simp only [tally,hruns,hsteps,hlog,countP_snoc_other he]

theorem tally_started {db db' : RunDb} {row : RunRow} (hlog : db'.log = db.log ++ [e])
    (he : ∀ k, isReceipt k e = false) (hruns : (RunWrite.insert r row).exec db.runs = .ok db'.runs)
    (hrow : RunRow.counts row = (0,0)) (hsteps : db'.steps = db.steps) :
    (tally db).Step (tally db') (.started r) := by
  obtain ⟨hnone,hput⟩ := exec_insert_counts hruns
  refine ⟨hnone,?_⟩
  simp only [tally,hput,hrow,hsteps,hlog,countP_snoc_other he]

theorem tally_committed {db db' : RunDb} {row : StepRow}
    (hlog : db'.log = db.log ++ [e]) (he : ∀ k, isReceipt k e = false)
    (hruns : (RunWrite.updateOne k.run_id operation f).exec db.runs = .ok db'.runs)
    (hf : ∀ row, RunRow.counts (f row) = ((RunRow.counts row).1+1,(RunRow.counts row).2))
    (hsteps : (StepWrite.insert k row).exec db.steps = .ok db'.steps)
    (hrow : StepRow.flags row = (false,false)) : (tally db).Step (tally db') (.committed k) := by
  obtain ⟨old,_,hcounts,hput⟩ := exec_update_counts hruns
  obtain ⟨hnone,hsput⟩ := insertRow_ok hsteps
  refine ⟨_,_,hcounts,by simp [tally,Table.column,hnone],?_⟩
  simp only [tally,hput,hf,hlog,countP_snoc_other he,hsput,Table.column_put,hrow]
  rfl

theorem tally_step {db db' : RunDb} (h : db.applyEvent e = .ok db') :
    (tally db).Step (tally db') (tallyEvent e) := by
  obtain ⟨hlog,hruns,_,hsteps⟩ := RunDb.applyEvent_ok h
  cases e with
  | startedV1 | startedV2 =>
    exact tally_started hlog (fun _ => rfl) hruns rfl (Except.ok.inj hsteps).symm
  | stepCommittedV1 | stepCommittedV2 =>
    exact tally_committed hlog (fun _ => rfl) hruns (fun _ => rfl) hsteps rfl
  | toolEffectRecorded r i call key digest spent =>
    obtain ⟨row,hrow,hguard,hput⟩ := exec_whenNull_flags hsteps
    have hr := exec_update_counts_same hruns (fun _ => rfl)
    have hnone : row.effect_recorded_seq.isSome = false := hguard
    refine ⟨row.checkpoint_seq.isSome,by simp [tally,Table.column,hrow,StepRow.flags,hnone],?_⟩
    simp only [tally,hr,hput,Table.column_put,hlog,Tally.mk.injEq,true_and]
    refine ⟨rfl,?_⟩
    funext k
    by_cases hk : k = ⟨r,i.toNat⟩
    · subst hk
      simp [countP_append,isReceipt]
    · rw [update_of_ne hk]
      simp [countP_append,isReceipt,hk]
  | checkpointSaved r i id digest =>
    obtain ⟨row,hrow,hguard,hput⟩ := exec_whenNull_flags hsteps
    obtain ⟨old,_,hcounts,hrput⟩ := exec_update_counts hruns
    have hnone : row.checkpoint_seq.isSome = false := hguard
    refine ⟨row.effect_recorded_seq.isSome,_,_,hcounts,
      by simp [tally,Table.column,hrow,StepRow.flags,hnone],?_⟩
    simp only [tally,hrput,hput,Table.column_put,hlog]
    rw [countP_snoc_other (fun _ => rfl)]
    rfl
  | artifactRecorded r i id hash media size =>
    exact tally_other hlog (fun _ => rfl) (by rw [← Except.ok.inj hruns])
      (exec_whenNull_flags_same hsteps (fun _ => rfl))
  | validationRecorded r i id status summary =>
    exact tally_other hlog (fun _ => rfl) (exec_update_counts_same hruns (fun _ => rfl))
      (exec_whenNull_flags_same hsteps (fun _ => rfl))
  | gateApproved r receipt call user reason expires =>
    exact tally_other hlog (fun _ => rfl) (by rw [← Except.ok.inj hruns]) (by rw [← Except.ok.inj hsteps])
  | finishedV2 r outcome total spent validation =>
    refine tally_other hlog (fun _ => rfl) (exec_update_counts_same hruns ?_)
      (by rw [← Except.ok.inj hsteps])
    intro row
    cases validation with
    | none => rfl
    | some v => rfl
  | _ =>
    exact tally_other hlog (fun _ => rfl) (exec_update_counts_same hruns (fun _ => rfl))
      (by rw [← Except.ok.inj hsteps])

end Refinement

section Interleaved
variable {t t' : Tally} {e : TallyEvent} {db db' : RunDb} {r : RunId}

theorem Tally.Step.counts_mono (h : t.Step t' e) {n m : Int} (hc : t.counts r = some (n,m)) :
    ∃ n' m', t'.counts r = some (n',m') ∧ n ≤ n' ∧ m ≤ m' := by
  cases e with
  | started q =>
    obtain ⟨hnone,rfl⟩ := h
    have hq : r ≠ q := fun he => by rw [he,hnone] at hc; cases hc
    exact ⟨n,m,(update_of_ne hq ..).trans hc,le_refl _,le_refl _⟩
  | committed k =>
    obtain ⟨a,b,hk,_,rfl⟩ := h
    by_cases hr : r = k.run_id
    · subst hr
      have hab := hc.symm.trans hk
      cases hab
      exact ⟨n+1,m,update_self ..,by omega,le_refl _⟩
    · exact ⟨n,m,(update_of_ne hr ..).trans hc,le_refl _,le_refl _⟩
  | effect k =>
    obtain ⟨c,_,rfl⟩ := h
    exact ⟨n,m,hc,le_refl _,le_refl _⟩
  | checkpoint k =>
    obtain ⟨f,a,b,hk,_,rfl⟩ := h
    by_cases hr : r = k.run_id
    · subst hr
      have hab := hc.symm.trans hk
      cases hab
      exact ⟨n,m+1,update_self ..,le_refl _,by omega⟩
    · exact ⟨n,m,(update_of_ne hr ..).trans hc,le_refl _,le_refl _⟩
  | other =>
    cases h
    exact ⟨n,m,hc,le_refl _,le_refl _⟩

variable {b : List RunEvent}

theorem applyEvents_counts_mono (h : db.applyEvents b = .ok db') {n m : Int}
    (hc : (tally db).counts r = some (n,m)) :
    ∃ n' m', (tally db').counts r = some (n',m') ∧ n ≤ n' ∧ m ≤ m' := by
  refine RunDb.applyEvents_keep
    (fun t => ∃ n' m', (tally t).counts r = some (n',m') ∧ n ≤ n' ∧ m ≤ m') ?_ h
    ⟨n,m,hc,le_refl _,le_refl _⟩
  rintro e - s t hst ⟨n',m',hc',hn,hm⟩
  obtain ⟨n2,m2,hc2,hn2,hm2⟩ := (tally_step hst).counts_mono hc'
  exact ⟨n2,m2,hc2,by omega,by omega⟩

theorem applyEvents_tally_other (h : db.applyEvents b = .ok db')
    (hb : ∀ e ∈ b, tallyEvent e = .other) : tally db' = tally db := by
  refine RunDb.applyEvents_keep (fun t => tally t = tally db) (fun e he s t hst hs => ?_) h rfl
  have hstep := tally_step hst
  rw [hb e he] at hstep
  exact hstep.trans hs

theorem applyEvents_append {a : List RunEvent} (h : db.applyEvents (a ++ b) = .ok db') :
    ∃ mid, db.applyEvents a = .ok mid ∧ mid.applyEvents b = .ok db' := by
  rw [RunDb.applyEvents,foldlM_append] at h
  exact bind_ok h

theorem applyEvents_single {e : RunEvent} (h : db.applyEvents [e] = .ok db') :
    db.applyEvent e = .ok db' := by
  obtain ⟨mid,h1,h2⟩ := RunDb.applyEvents_cons h
  cases h2
  exact h1

def ledgerCompat : (q : RunQuery) → runSignature.Answer q → RunDb → Prop
  | .run r, some raw, s => ∃ n m, (tally s).counts r = some (n,m) ∧
      raw.committed_step_count ≤ n ∧ raw.checkpointed_step_count ≤ m
  | _, _, _ => True

theorem ledgerCompat_answer (s : RunDb) (q : RunQuery) : ledgerCompat q (runAnswer s q) s := by
  cases q with
  | run r =>
    show ledgerCompat (.run r) (s.runs.get? r) s
    cases hr : s.runs.get? r with
    | none => exact trivial
    | some raw =>
      refine ⟨_,_,?_,le_refl _,le_refl _⟩
      show s.runs.column RunRow.counts r = some _
      rw [Table.column,hr]
      rfl
  | grants | step => exact trivial

theorem ledgerCompat_stable {s s' : RunDb} {q : RunQuery} {a : runSignature.Answer q}
    (h : s.applyEvents b = .ok s') (hc : ledgerCompat q a s) : ledgerCompat q a s' := by
  cases q with
  | run r =>
    cases a with
    | none => exact trivial
    | some raw =>
      obtain ⟨n,m,hcounts,hn,hm⟩ := hc
      obtain ⟨n',m',hc',hn',hm'⟩ := applyEvents_counts_mono h hcounts
      exact ⟨n',m',hc',le_trans hn hn',le_trans hm hm'⟩
  | grants | step => exact trivial

theorem RunRead.facts (read : RunRead r) : ∃ grants, ParsesTo r read.raw grants read.st := by
  obtain ⟨grants,_,hp⟩ := read.parsed
  exact ⟨grants,parseRun_ok hp⟩

theorem RunRead.compat_ledger {read : RunRead r} {s : RunDb} (h : Compat ledgerCompat read.seen s) :
    ∃ n m, (tally s).counts r = some (n,m) ∧
      read.raw.committed_step_count ≤ n ∧ read.raw.checkpointed_step_count ≤ m :=
  h (.run r) (some read.raw) (by simp [RunRead.seen])

theorem effectEvents_split (call : AuthorizedToolCall) (report : ToolEffectReport)
    (state : RunState) (step : RunStepState) :
    ∃ mid tail, effectEvents call report state step =
      [.toolEffectRecorded call.run_id call.step_index call.call_id call.idempotency_key
        report.output_digest report.spent] ++ (mid ++
      ([.checkpointSaved call.run_id call.step_index (checkpointId call.call_id)
        report.checkpoint_digest] ++ tail)) ∧
      (∀ e ∈ mid, tallyEvent e = .other) ∧ tail = overReservationEvents call report state step := by
  refine ⟨artifactEvents call report.artifact ++ validationEvents call report.validation,_,?_,?_,
    rfl⟩
  · simp only [effectEvents,append_assoc]
  · intro e he
    rcases mem_append.mp he with h | h
    · cases ha : report.artifact with
      | none => simp [ha,artifactEvents] at h
      | some a =>
        simp only [ha,artifactEvents,mem_singleton] at h
        subst h
        rfl
    · cases hv : report.validation with
      | none => simp [hv,validationEvents] at h
      | some v =>
        simp only [hv,validationEvents,mem_singleton] at h
        subst h
        rfl

theorem overReservation_other (call : AuthorizedToolCall) (report : ToolEffectReport)
    (state : RunState) (step : RunStepState) :
    ∀ e ∈ overReservationEvents call report state step, tallyEvent e = .other := by
  intro e he
  unfold overReservationEvents at he
  split at he
  · cases he
  · simp only [mem_singleton] at he
    subst he
    rfl

variable {call : AuthorizedToolCall}

theorem effect_ledger {report : ToolEffectReport} {state : RunState}
    {step : RunStepState} (hok : (tally db).Ok)
    (h : db.applyEvents (effectEvents call report state step) = .ok db') :
    (tally db').Ok ∧ ∃ m, (tally db).Ledger call.run_id (m+1) m ∧ call.step_index.toNat = m ∧
      (tally db').Ledger call.run_id (m+1) (m+1) := by
  obtain ⟨mid,tail,heq,hmid,htail⟩ := effectEvents_split call report state step
  rw [heq] at h
  obtain ⟨d1,h1,h⟩ := applyEvents_append h
  obtain ⟨d2,h2,h⟩ := applyEvents_append h
  obtain ⟨d3,h3,h4⟩ := applyEvents_append h
  have hs1 := tally_step (applyEvents_single h1)
  have hs2 := applyEvents_tally_other h2 hmid
  have hs3 := tally_step (applyEvents_single h3)
  have hs4 := applyEvents_tally_other h4 (htail ▸ overReservation_other call report state step)
  rw [hs2] at hs3
  rw [hs4]
  exact hok.recorded hs1 hs3

theorem settleEvents_other (st : RunState) (control : PendingRunControl) :
    ∀ e ∈ settleEvents st control, tallyEvent e = .other := by
  intro e he
  rcases settleEvents_mem he with rfl | rfl | rfl <;> rfl

theorem gateEvents_other (st : RunState) (receipt : Option GateReceipt) :
    ∀ e ∈ gateEvents st receipt, tallyEvent e = .other := by
  intro e he
  cases receipt with
  | none => cases he
  | some receipt =>
    simp only [gateEvents,mem_singleton] at he
    subst he
    rfl

theorem single_other {e : RunEvent} (he : tallyEvent e = .other) :
    ∀ e' ∈ [e], tallyEvent e' = .other := by
  intro e' h
  rw [mem_singleton.mp h]
  exact he

theorem step_ledger {run_id : RunId} {plan : StepPlan} {receipt : Option GateReceipt}
    {r : RunRead run_id} (hat : AtBoundary r.st)
    (hindex : plan.step_index = r.st.committed_step_count)
    (hseen : Compat ledgerCompat r.seen db) (hok : (tally db).Ok)
    (h : db.applyEvents (stepEvents r.st plan call receipt) = .ok db') : (tally db').Ok := by
  obtain ⟨mid,h1,h2⟩ := applyEvents_append h
  have hmid := applyEvents_tally_other h1 (gateEvents_other r.st receipt)
  have hstep := tally_step (applyEvents_single h2)
  rw [hmid] at hstep
  obtain ⟨grants,hp⟩ := r.facts
  obtain ⟨n,m,hcounts,_,hm⟩ := RunRead.compat_ledger hseen
  refine hok.committed hstep ?_
  intro n' m' hc
  have hrun : r.st.run_id = run_id := hp.run_id
  rw [hrun] at hc
  have heq := hcounts.symm.trans hc
  cases heq
  have hcp := toU32_ok hp.checkpointed
  show (plan.step_index.toNat : Int) ≤ m
  rw [hindex,hat.counts]
  omega

theorem decision_ledger {op : HarnessCall} {seen : List (Obs runSignature)}
    (hd : Decision op seen b) (hseen : Compat ledgerCompat seen db) (hok : (tally db).Ok)
    (h : db.applyEvents b = .ok db') : (tally db').Ok := by
  cases hd with
  | start h' spec runtime depth seen hbudget hlineage =>
    exact hok.started (tally_step (applyEvents_single h))
  | step h' run_id plan receipt r call hplan hat hpending hindex hadmits =>
    exact step_ledger hat hindex hseen hok h
  | effect call report r t hreport htarget hcheckpoint heffect => exact (effect_ledger hok h).1
  | settle _ run_id r control hpending hcounts hop =>
    rw [applyEvents_tally_other h (settleEvents_other r.st control)]
    exact hok
  | control _ run_id reason control r hop hterminal hpending hpaused =>
    have hother : tallyEvent (controlEvent run_id reason control) = .other := by
      cases control with
      | pause => rfl
      | cancel => rfl
    rw [applyEvents_tally_other h (single_other hother)]
    exact hok
  | _ =>
    rw [applyEvents_tally_other h (single_other rfl)]
    exact hok

def ledgerContract : Contract runSignature HarnessCall RunDb where
  compat := ledgerCompat
  inv s := (tally s).Ok
  may _ _ := True
  rel _ _ _ := True

theorem ledger_meets : Meets ledgerContract := by
  intro op seen b hd s s' hseen hinv _ ha
  exact ⟨decision_ledger hd hseen hinv ha,trivial⟩

theorem empty_tally : (tally RunDb.empty).Ok :=
  fun _ => Or.inl ⟨rfl,fun _ => rfl,fun _ => rfl⟩

theorem reachable_ledger {G : Guard runSignature HarnessCall HarnessError HarnessReply RunDb}
    {c : Config runSignature HarnessCall HarnessError HarnessReply RunDb}
    (h : Reachable runSystem G RunDb.empty c) : (tally c.store).Ok := by
  have hstable := reachable_stable ledgerCompat ledgerCompat_answer
    (fun s b s' q a ha hc => ledgerCompat_stable (runApply_ok ha).2 hc) h
  exact (run_ok (K := ledgerContract) (code_runs ledger_meets) (fun _ _ _ => trivial)
    (fun _ _ hg => hg) empty_tally hstable.1).inv

end Interleaved

/-- However the operations of any harnesses interleave, and wherever they stop, a Run's
rows are a write-ahead ledger: `n` committed steps from zero, of which the first `m` have
one receipt and a checkpoint each and at most one more is outstanding. -/
theorem run_ledger_write_ahead
    {c : Config runSignature HarnessCall HarnessError HarnessReply RunDb}
    (h : Reachable runSystem Guard.free RunDb.empty c) {run_id : RunId} {row : RunRow}
    (hrow : c.store.runs.get? run_id = some row) :
    ∃ n m : Nat, row.committed_step_count = n ∧ row.checkpointed_step_count = m ∧
      (n-m : Int) ∈ ({0,1} : Set Int) ∧
      (∀ i, (c.store.steps.get? ⟨run_id,i⟩).isSome ↔ i < n) ∧
      (∀ i step, c.store.steps.get? ⟨run_id,i⟩ = some step →
        (step.checkpoint_seq.isSome ↔ i < m) ∧
        (step.effect_recorded_seq.isSome ↔ step.checkpoint_seq.isSome)) ∧
      (∀ i, c.store.log.countP (isReceipt ⟨run_id,i⟩) = if i < m then 1 else 0) := by
  have hcounts : (tally c.store).counts run_id = some (RunRow.counts row) := by
    show c.store.runs.column RunRow.counts run_id = _
    rw [Table.column,hrow]
    rfl
  rcases reachable_ledger h run_id with ha | ⟨n,m,hl⟩
  · rw [ha.counts] at hcounts
    cases hcounts
  have heq := hl.counts.symm.trans hcounts
  simp only [RunRow.counts,Option.some.injEq,Prod.mk.injEq] at heq
  have hgap := hl.gap
  refine ⟨n,m,heq.1.symm,heq.2.symm,?_,?_,?_,hl.receipts⟩
  · simp only [Set.mem_insert_iff,Set.mem_singleton_iff]
    omega
  · intro i
    have hf := hl.flags i
    simp only [tally,Table.column] at hf
    by_cases hi : i < n
    · rw [if_pos hi,Option.map_eq_some_iff] at hf
      obtain ⟨step,hstep,_⟩ := hf
      simp [hstep,hi]
    · rw [if_neg hi,Option.map_eq_none_iff] at hf
      simp [hf,hi]
  · intro i step hstep
    have hf := hl.flags i
    simp only [tally,Table.column,hstep,Option.map_some,StepRow.flags] at hf
    by_cases hi : i < n
    · rw [if_pos hi] at hf
      simp only [Option.some.injEq,Prod.mk.injEq] at hf
      rw [hf.1,hf.2]
      simp
    · rw [if_neg hi] at hf
      cases hf

def demoTool : ToolId := ⟨"echo.read",by decide⟩

theorem demo_input_bound : 0 < (64 : UInt32).toNat ∧ (64 : UInt32).toNat ≤ toolInputBytesMax := by
  decide

def demoHarness : RunHarness where
  project_id := ⟨1⟩
  tools := ToolRegistry.empty.insert
    ⟨demoTool,1,.readEvidence,.allow,.readOnly,64,version_one,demo_input_bound⟩
  runtimes := ⟨Table.empty.put "projectos.native"
    ⟨"projectos.native",.native,1,[.device],.healthy⟩⟩

def demoSpec : RunStartSpec where
  run_id := ⟨7⟩
  worker := .echo
  runtime_id := "projectos.native"
  executor := .device
  trigger := .user
  autonomy_level := ⟨1,by decide⟩
  budget := ⟨100,100,100,100,10,10,10⟩
  tool_grants := ⟨Table.empty.put demoTool .allow⟩
  parent_run_id := none
  checkpoint := none
  validation := none
  execution_lease := none
  tainted := false

def demoPlan : StepPlan where
  step_index := 0
  phase := .tool
  summary := "read"
  digest := 0
  tool_call := ⟨demoTool,⟨3⟩,[]⟩
  reserved := ⟨5,5,5,5,1,0,1⟩

def demoMoves : List (Move runSignature HarnessCall) :=
  [.spawn 0 (.start demoHarness demoSpec),.turn 0,.turn 0,
    .spawn 1 (.prepareStep demoHarness ⟨7⟩ demoPlan none),.turn 1,.turn 1,.clock 1 0,.turn 1,.turn 1]

theorem demo_reachable :
    Reachable runSystem Guard.free RunDb.empty (after runSystem RunDb.empty demoMoves) :=
  after_reachable (by decide)

theorem run_ledger_one_outstanding :
    ∃ row, (after runSystem RunDb.empty demoMoves).store.runs.get? ⟨7⟩ = some row ∧
      ∃ n m : Nat, row.committed_step_count = n ∧ row.checkpointed_step_count = m ∧
        (n-m : Int) ∈ ({0,1} : Set Int) := by
  have hsome : ((after runSystem RunDb.empty demoMoves).store.runs.get? ⟨7⟩).isSome = true := by
    decide
  obtain ⟨row,hrow⟩ := Option.isSome_iff_exists.mp hsome
  obtain ⟨n,m,hn,hm,hgap,_⟩ := run_ledger_write_ahead demo_reachable hrow
  exact ⟨row,hrow,n,m,hn,hm,hgap⟩

end ProjectOS.Agents
