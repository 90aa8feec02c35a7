import ProjectOS.Agents.Echo
import ProjectOS.Agents.Effects

/-! Runs that share a log stay apart, however their operations interleave. -/

namespace ProjectOS.Agents
open Lib Lib.Optimistic Domain

variable {G es c} {id : RunId}

def ownBatch (id : RunId) : RunEntry → List RunEvent
  | .applied op _ b => if op.run = id then b else []
  | .returned _ _ => []

theorem filter_own {entry : RunEntry} (h : EntryTold entry) :
    (entryBatch entry).filter (fun e => decide (e.run = id)) = ownBatch id entry := by
  cases entry with
  | returned op a => rfl
  | applied op seen b =>
    have habout : ∀ e ∈ b, e.run = op.run := by
      cases h with
      | step a => exact stepEvents_about a.r.run_id_eq _ a.call _
      | other hd _ => exact fun e he => (decision_about hd e he).1
    rw [entryBatch,ownBatch]
    split_ifs with hop
    · exact List.filter_eq_self.mpr fun e he => by simp [habout e he,hop]
    · exact List.filter_eq_nil_iff.mpr fun e he => by simp [habout e he,hop]

theorem rowRun_append (a b : List RunEvent) (seq : Nat) (row : Option RunRow) :
    rowRun id seq (a ++ b) row = rowRun id (seq+a.length) b (rowRun id seq a row) := by
  induction a generalizing seq row with
  | nil => rfl
  | cons e a ih =>
    rw [List.cons_append,rowRun,ih,List.length_cons,rowRun,Nat.add_right_comm,Nat.add_assoc]

/-- In every interleaving of operations of any number of harnesses, what the log tells of a
Run is what the operations on that Run appended, and its row is the fold of these events. -/
theorem runs_apart (h : Trace runSystem G RunDb.empty es c) (id : RunId) :
    c.store.log.filter (fun e => decide (e.run = id)) = es.flatMap (ownBatch id) ∧
      c.store.runs.get? id = rowRun id 1 c.store.log none := by
  obtain ⟨hlog,htold⟩ := trace_told h
  constructor
  · rw [hlog,List.filter_flatMap]
    exact List.flatMap_congr fun entry he => filter_own (htold entry he)
  · have hrule : HistoryRule Told Handed (fun _ _ _ => True) runSystem G
        fun s _ => s.runs.get? id = rowRun id 1 s.log none :=
      ⟨fun _ op _ => code_tells op,fun _ _ _ _ _ _ => trivial,?_,fun _ _ _ _ _ _ hs _ _ => hs⟩
    · exact trace_inv hrule rfl h
    intro s _ op seen b s' hs _ _ _ ha
    have happly := (runApply_ok ha).2
    rw [RunDb.applyEvents_row happly,RunDb.applyEvents_log happly,rowRun_append,← hs,
      RunDb.head,Nat.add_comm]

theorem demo_apart :
    (after runSystem RunDb.empty demoMoves).store.log.filter (fun e => decide (e.run = ⟨7⟩)) =
      (history runSystem RunDb.empty demoMoves).flatMap (ownBatch ⟨7⟩) :=
  (runs_apart (history_free (by decide)) ⟨7⟩).1

end ProjectOS.Agents
