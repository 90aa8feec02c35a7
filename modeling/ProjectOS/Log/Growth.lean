import ProjectOS.Log.Meaning

namespace ProjectOS.Log
open Lib Domain List

section
variable {B : Backend} {R : ProjectionRegistry}

def Db.nextLamport (db : Db) (device : DeviceId) : Nat :=
  satAdd64 (nonNegative ((db.devices.get? device).getD 0)) 1

def Db.advance (db : Db) (device : DeviceId) : Db :=
  { db with devices := db.devices.put device (integerU64 (db.nextLamport device)) }

def Db.extend (B : Backend) (R : ProjectionRegistry) (cadence tsMs : Nat) (db : Db)
    (request : AppendRequest) : Except Failure Db :=
  (sqlFails "insert event" ((db.advance request.device).insertEvent
    (integerU64 (satAdd64 db.applied 1))
    (request.row (db.nextLamport request.device) tsMs))).bind (fun db' =>
      db'.follow B R (some cadence)
        (request.event (satAdd64 db.applied 1) (db.nextLamport request.device) tsMs))

theorem execute_nextDeviceLamport (device : DeviceId) (db : Db) :
    (nextDeviceLamport device).execute (Db.exec B) db =
      .ok (db.nextLamport device,db.advance device) := rfl

variable (cfg : LogConfig)

theorem execute_appendOne (tsMs : Nat) (request : AppendRequest) (db : Db) :
    (appendOne B R cfg tsMs db.applied request).execute (Db.exec B) db =
      (db.extend B R cfg.snapshotCadenceEvents tsMs request).map
        (fun db' => (satAdd64 db.applied 1,db')) := by
  rw [appendOne,Db.extend,Prog.execute_bind,execute_nextDeviceLamport]
  simp only [Except.bind]
  rw [Prog.execute_bind,execute_ask,Db.exec]
  cases sqlFails "insert event" ((db.advance request.device).insertEvent
      (integerU64 (satAdd64 db.applied 1)) (request.row (db.nextLamport request.device) tsMs)) with
  | error f => rfl
  | ok db' =>
    simp only [Except.map,Except.bind]
    rw [Prog.execute_bind,execute_ask,Db.exec]
    simp only [Except.bind]
    rw [Prog.execute_bind,Prog.execute_unit,effect_applyEvent,Db.follow]
    cases R.applyTo B db'.catalog
        (request.event (satAdd64 db.applied 1) (db.nextLamport request.device) tsMs) with
    | error f => rfl
    | ok c =>
      have htrip : ∀ db, Prog.effect (Db.exec B) (ask (.tripFault .logSnapshotWritten)) db = .ok db :=
        fun _ => rfl
      have hsnap := effect_snapshotIfDue R htrip cfg.snapshotCadenceEvents
        (request.event (satAdd64 db.applied 1) (db.nextLamport request.device) tsMs)
        { db' with catalog := c, appliedSeq := some (satAdd64 db.applied 1) }
      simp only [Except.map,Except.bind,AppendRequest.event_seq,AppendRequest.event_tsMs] at hsnap ⊢
      rw [Prog.execute_bind,Prog.execute_unit,hsnap]
      generalize Db.snapshotAfter _ _ _ _ _ = result
      cases result with
      | ok | error => rfl

def seqsAfter : Nat → List AppendRequest → List Nat
  | _, [] => []
  | head, _ :: rest => satAdd64 head 1 :: seqsAfter (satAdd64 head 1) rest

variable {db : Db} {cadence tsMs n : Nat} {db' : Db} {request : AppendRequest}

theorem extend_applied
    (h : db.extend B R cadence tsMs request = .ok db') : db'.applied = satAdd64 db.applied 1 := by
  obtain ⟨db₁,-,h⟩ := ok_of_bind h
  rw [Db.applied,(follow_log R h).2.2.2]
  rfl

theorem execute_appendAll (tsMs : Nat) (requests : List AppendRequest) (db : Db) :
    (appendAll B R cfg tsMs db.applied requests).execute (Db.exec B) db =
      (requests.foldlM (Db.extend B R cfg.snapshotCadenceEvents tsMs) db).map
        (fun db' => (seqsAfter db.applied requests,db')) := by
  induction requests generalizing db with
  | nil => rfl
  | cons request rest ih =>
    rw [appendAll,Prog.execute_bind,execute_appendOne,foldlM_cons]
    cases h : db.extend B R cfg.snapshotCadenceEvents tsMs request with
    | error f => rfl
    | ok db' =>
      have happlied := extend_applied h
      have hrest := ih db'
      rw [happlied] at hrest
      simp only [Except.map,Except.bind]
      rw [Prog.execute_bind,hrest]
      simp only [bind,Except.bind]
      cases rest.foldlM (Db.extend B R cfg.snapshotCadenceEvents tsMs) db' with
      | error | ok => rfl

theorem execute_appendEvents (expectedHead : Option Nat) (requests : List AppendRequest)
    (tsMs : Nat) (h : db.applied = db.head) :
    (appendEvents B R cfg expectedHead requests tsMs).execute (Db.exec B) db =
      if expectedHead.any (fun expected => decide (db.head ≠ expected)) then
        .error (.error (.headChanged (expectedHead.getD 0) db.head))
      else
        (requests.foldlM (Db.extend B R cfg.snapshotCadenceEvents tsMs) db).map
          (fun db' => (seqsAfter db.head requests,db')) := by
  rw [appendEvents,Prog.execute_bind,execute_ask,Db.exec]
  simp only [Except.bind]
  rw [Prog.execute_bind,execute_ask,Db.exec]
  simp only [Except.bind,h,ne_eq,not_true_eq_false,if_false]
  split
  · rfl
  · have hall := execute_appendAll (B := B) (R := R) cfg tsMs requests db
    rw [h] at hall
    rw [Prog.execute_bind,hall]
    cases requests.foldlM (Db.extend B R cfg.snapshotCadenceEvents tsMs) db with
    | error | ok => rfl

def deviceRows (events : Table Int EventRow) (device : DeviceId) : List (Int × EventRow) :=
  events.rows.filter (fun r => r.2.device = device)

/-- Sequence numbers without a gap, lamport values that count each device's events,
and current projections. -/
structure Sound (db : Db) : Prop where
  contiguous : Contiguous db.events
  lamports : ∀ device (i : Nat) r, (deviceRows db.events device)[i]? = some r → r.2.lamport = i+1
  devices : ∀ device,
    nonNegative ((db.devices.get? device).getD 0) = (deviceRows db.events device).length
  current : db.applied = db.head

theorem Sound.applied_eq (h : Sound db) : db.applied = db.events.rows.length :=
  h.current.trans (head_eq h.contiguous)

theorem Sound.readable (h : Sound db) : Readable db.events := by
  intro r hr
  have hmem : r ∈ deviceRows db.events r.2.device := by simp [deviceRows,hr]
  obtain ⟨i,hi⟩ := mem_iff_getElem?.mp hmem
  have hl := h.lamports r.2.device i r hi
  omega

theorem deviceRows_le (events : Table Int EventRow) (device : DeviceId) :
    (deviceRows events device).length ≤ events.rows.length := length_filter_le _ _

theorem i64_lt_u64 : i64Max < u64Max := by decide

theorem satAdd64_one (h : (n : Int) ≤ i64Max) : satAdd64 n 1 = n+1 := by
  have hu := i64_lt_u64
  rw [satAdd64,min_eq_left]
  omega

theorem integerU64_eq (h : (n : Int) ≤ i64Max) : integerU64 n = n := min_eq_left h

theorem Sound.nextLamport_eq (h : Sound db) (device : DeviceId) :
    db.nextLamport device = (deviceRows db.events device).length+1 := by
  have hle := deviceRows_le db.events device
  have hroom := h.contiguous.room
  rw [Db.nextLamport,h.devices device]
  exact satAdd64_one (by omega)

def Db.nextEvent (db : Db) (tsMs : Nat) (request : AppendRequest) : Event :=
  request.event (db.events.rows.length+1) ((deviceRows db.events request.device).length+1) tsMs

def Db.grown (db : Db) (tsMs : Nat) (request : AppendRequest) : Db :=
  { db.advance request.device with
    events := db.events.put (db.events.rows.length+1)
      (request.row ((deviceRows db.events request.device).length+1) tsMs) }

variable {events : Table Int EventRow}

theorem Contiguous.key_le (h : Contiguous events) :
    ∀ r ∈ events.rows, 0 < r.1 ∧ r.1 ≤ events.rows.length := by
  intro r hr
  obtain ⟨i,hi⟩ := mem_iff_getElem?.mp hr
  have hseq := h.seqs i r hi
  have hlt := (List.getElem?_eq_some_iff.mp hi).1
  omega

theorem Contiguous.get?_next (h : Contiguous events) :
    events.get? (events.rows.length+1) = none := by
  cases hg : events.get? (events.rows.length+1) with
  | none => rfl
  | some row =>
    have hle := (h.key_le _ ((Table.mem_rows events).mpr hg)).2
    omega

section
variable (h : Sound db)
include h

theorem extend_eq (cadence tsMs : Nat) (request : AppendRequest) :
    db.extend B R cadence tsMs request =
      if (db.events.rows.length : Int) < i64Max then
        (db.grown tsMs request).follow B R (some cadence) (db.nextEvent tsMs request)
      else .error (sqlite "insert event" "UNIQUE constraint failed: events.seq") := by
  have hroom := h.contiguous.room
  rw [Db.extend,h.applied_eq,satAdd64_one hroom,h.nextLamport_eq]
  split
  · rename_i hlt
    have hkey : integerU64 (db.events.rows.length+1) = db.events.rows.length+1 :=
      integerU64_eq (by push_cast; omega)
    have hfresh : (db.advance request.device).events.get? (db.events.rows.length+1) = none :=
      h.contiguous.get?_next
    rw [Db.insertEvent,hkey,hfresh]
    rfl
  · rename_i hge
    have hfull : (db.events.rows.length : Int) = i64Max := by omega
    have hkey : integerU64 (db.events.rows.length+1) = i64Max := by
      rw [integerU64]
      push_cast
      omega
    have hpos : 0 < db.events.rows.length := by
      have hmax : (0 : Int) < i64Max := by decide
      omega
    obtain ⟨r,hr⟩ : ∃ r, db.events.rows[db.events.rows.length-1]? = some r :=
      ⟨_,List.getElem?_eq_getElem (by omega)⟩
    have hseq := h.contiguous.seqs _ r hr
    have hlast : r.1 = i64Max := by omega
    have htaken : (db.advance request.device).events.get? i64Max = some r.2 := by
      rw [← hlast]
      exact (Table.mem_rows _).mp (mem_of_getElem? hr)
    rw [Db.insertEvent,hkey,htaken]
    rfl

theorem grown_rows (tsMs : Nat) (request : AppendRequest) :
    (db.grown tsMs request).events.rows = db.events.rows ++ [((db.events.rows.length : Int)+1,
      request.row ((deviceRows db.events request.device).length+1) tsMs)] := by
  refine Table.put_end _ _ ?_
  intro r hr
  have hle := (h.contiguous.key_le r hr).2
  omega

theorem grown_deviceRows (tsMs : Nat) (request : AppendRequest) (device : DeviceId) :
    deviceRows (db.grown tsMs request).events device = deviceRows db.events device ++
      if request.device = device then [((db.events.rows.length : Int)+1,
        request.row ((deviceRows db.events request.device).length+1) tsMs)] else [] := by
  rw [deviceRows,grown_rows h,filter_append,deviceRows]
  congr 1
  by_cases hd : request.device = device
  · simp [AppendRequest.row,hd]
  · simp [AppendRequest.row,hd]

section
variable (hroom : (db.events.rows.length : Int) < i64Max)
include hroom

theorem grown_contiguous
    (tsMs : Nat) (request : AppendRequest) : Contiguous (db.grown tsMs request).events := by
  constructor
  · intro i r hr
    rw [grown_rows h,List.getElem?_append] at hr
    split at hr
    · exact h.contiguous.seqs i r hr
    · rename_i hge
      rw [List.getElem?_singleton] at hr
      split at hr
      · obtain rfl := Option.some.inj hr
        dsimp only
        omega
      · exact absurd hr (by simp)
  · rw [grown_rows h,length_append,length_singleton]
    push_cast
    omega

theorem grown_lamports
    (tsMs : Nat) (request : AppendRequest) :
    ∀ device (i : Nat) r, (deviceRows (db.grown tsMs request).events device)[i]? = some r →
      r.2.lamport = i+1 := by
  intro device i r hr
  rw [grown_deviceRows h,List.getElem?_append] at hr
  split at hr
  · exact h.lamports device i r hr
  · rename_i hge
    split at hr
    · rename_i hd
      subst hd
      rw [List.getElem?_singleton] at hr
      split at hr
      · obtain rfl := Option.some.inj hr
        have hle := deviceRows_le db.events request.device
        rw [AppendRequest.row,integerU64_eq (by push_cast; omega)]
        push_cast
        omega
      · exact absurd hr (by simp)
    · exact absurd hr (by simp)

theorem grown_devices (tsMs : Nat) (request : AppendRequest) (device : DeviceId) :
    nonNegative (((db.grown tsMs request).devices.get? device).getD 0) =
      (deviceRows (db.grown tsMs request).events device).length := by
  have hle := deviceRows_le db.events request.device
  have hput : (db.grown tsMs request).devices = db.devices.put request.device
      (integerU64 ((deviceRows db.events request.device).length+1)) := by
    rw [← h.nextLamport_eq]
    rfl
  rw [grown_deviceRows h,hput,Table.get?_put]
  by_cases hd : device = request.device
  · subst hd
    rw [integerU64_eq (by push_cast; omega)]
    simp [nonNegative]
  · rw [if_neg hd,if_neg (Ne.symm hd),h.devices device]
    simp

end

theorem extend_sound (hext : db.extend B R cadence tsMs request = .ok db') :
    Sound db' ∧ db'.events = (db.grown tsMs request).events := by
  rw [extend_eq h] at hext
  split at hext
  · rename_i hroom
    obtain ⟨hevents,hdevices,-,happlied⟩ := follow_log R hext
    have hcontiguous : Contiguous db'.events := hevents ▸ grown_contiguous h hroom tsMs request
    refine ⟨⟨hcontiguous,?_,?_,?_⟩,hevents⟩
    · rw [hevents]
      exact grown_lamports h hroom tsMs request
    · intro device
      rw [hevents,hdevices]
      exact grown_devices h hroom tsMs request device
    · rw [Db.applied,happlied,head_eq hcontiguous,hevents,grown_rows h,length_append]
      rfl
  · exact absurd hext (by simp)

end

def AddsRows (events : Table Int EventRow) (rows : List (Int × EventRow))
    (requests : List AppendRequest) (tsMs : Nat) : Prop :=
  ∃ added, rows = events.rows ++ added ∧ added.length = requests.length ∧
    ∀ (i : Nat) r request, added[i]? = some r → requests[i]? = some request →
      r.1 = events.rows.length+i+1 ∧ ∃ lamport, r.2 = request.row lamport tsMs

variable {requests : List AppendRequest}

theorem extendAll_sound
    (h : Sound db) (hext : requests.foldlM (Db.extend B R cadence tsMs) db = .ok db') :
    Sound db' ∧ AddsRows db.events db'.events.rows requests tsMs := by
  induction requests generalizing db with
  | nil =>
    obtain rfl : db = db' := Except.ok.inj hext
    exact ⟨h,[],by simp,rfl,by simp⟩
  | cons request rest ih =>
    rw [foldlM_cons] at hext
    obtain ⟨db₁,hone,hrest⟩ := ok_of_bind hext
    obtain ⟨hsound,hevents⟩ := extend_sound h hone
    obtain ⟨hlast,added,hrows,hlen,hadded⟩ := ih hsound hrest
    refine ⟨hlast,((db.events.rows.length : Int)+1,
      request.row ((deviceRows db.events request.device).length+1) tsMs) :: added,?_,?_,?_⟩
    · rw [hrows,hevents,grown_rows h,append_assoc]
      rfl
    · simp [hlen]
    · intro i r req hr hreq
      cases i with
      | zero =>
        obtain rfl := Option.some.inj hr
        obtain rfl := Option.some.inj hreq
        exact ⟨by simp,_,rfl⟩
      | succ i =>
        obtain ⟨hseq,hlamport⟩ := hadded i r req hr hreq
        refine ⟨?_,hlamport⟩
        rw [hevents,grown_rows h,length_append,length_singleton] at hseq
        push_cast at hseq ⊢
        omega

def assigned (tsMs : Nat) : Nat → (DeviceId → Nat) → List AppendRequest → List Event
  | _, _, [] => []
  | head, lamports, request :: rest =>
    request.event (head+1) (lamports request.device+1) tsMs ::
      assigned tsMs (head+1)
        (Function.update lamports request.device (lamports request.device+1)) rest

def Db.lamports (db : Db) (device : DeviceId) : Nat := (deviceRows db.events device).length

/-- Every request passes its bounds, its sequence numbers fit the table, and the
projections accept its events. -/
structure ValidBatch (B : Backend) (R : ProjectionRegistry) (cadence tsMs : Nat) (db : Db)
    (requests : List AppendRequest) : Prop where
  bounded : requests.forM validateRequest = .ok ()
  room : (db.events.rows.length+requests.length : Int) ≤ i64Max
  accepted : ∃ c, (assigned tsMs db.events.rows.length db.lamports requests).foldlM
    (R.carry B (some cadence)) db.catalog = .ok c

theorem grown_lamportsOf (h : Sound db) (tsMs : Nat) (request : AppendRequest)
    (hevents : db'.events = (db.grown tsMs request).events) :
    db'.lamports = Function.update db.lamports request.device (db.lamports request.device+1) := by
  funext device
  rw [Db.lamports,hevents,grown_deviceRows h]
  by_cases hd : device = request.device
  · subst hd
    simp [Db.lamports]
  · rw [Function.update_of_ne hd,if_neg (Ne.symm hd)]
    simp [Db.lamports]

theorem extendAll_iff (h : Sound db) :
    (∃ db', requests.foldlM (Db.extend B R cadence tsMs) db = .ok db') ↔
      (db.events.rows.length+requests.length : Int) ≤ i64Max ∧
      ∃ c, (assigned tsMs db.events.rows.length db.lamports requests).foldlM
        (R.carry B (some cadence)) db.catalog = .ok c := by
  induction requests generalizing db with
  | nil =>
    constructor
    · rintro -
      exact ⟨by simpa using h.contiguous.room,db.catalog,rfl⟩
    · rintro -
      exact ⟨db,rfl⟩
  | cons request rest ih =>
    rw [foldlM_cons,assigned,foldlM_cons,length_cons]
    by_cases hroom : (db.events.rows.length : Int) < i64Max
    · have hcarry := follow_catalog (B := B) R (some cadence) (db.grown tsMs request)
        (db.nextEvent tsMs request)
      have hext := extend_eq (B := B) (R := R) h cadence tsMs request
      rw [if_pos hroom] at hext
      change _ = R.carry B (some cadence) db.catalog (request.event (db.events.rows.length+1)
        (db.lamports request.device+1) tsMs) at hcarry
      rw [← hcarry]
      cases hone : (db.grown tsMs request).follow B R (some cadence) (db.nextEvent tsMs request) with
      | error f =>
        rw [hext,hone]
        simp [bind,Except.bind,Except.map]
      | ok db₁ =>
        rw [hone] at hext
        obtain ⟨hsound,hevents⟩ := extend_sound h hext
        have hrest := ih hsound
        rw [grown_lamportsOf h tsMs request hevents,hevents,grown_rows h,length_append,
          length_singleton] at hrest
        rw [hext]
        refine hrest.trans (and_congr ?_ Iff.rfl)
        push_cast
        omega
    · rw [extend_eq h,if_neg hroom]
      constructor
      · rintro ⟨db',hdb⟩
        exact absurd hdb (by simp [bind,Except.bind])
      · rintro ⟨hle,-⟩
        push_cast at hle
        omega

end
end ProjectOS.Log
