import Mathlib.Algebra.Order.BigOperators.Group.List
import Mathlib.Order.WithBot
import ProjectOS.Api.Surface
import ProjectOS.Lib.Rollup

/-! `cost.rollup`: the calls of the ledger grouped in SQL, and the groups folded
three ways. -/

namespace ProjectOS.Api
open Lib List

structure CostKey where
  project_id : ProjectId
  feature : String
  agent : Option String
  provider : String
  credential_class : String
  model : String
  provider_cost_kind : String
  deriving DecidableEq

structure ModelCallRow extends CostKey where
  tokens_in : Nat
  tokens_out : Nat
  wall_ms : Nat
  usd_micros : Nat

structure CostRollupTotals where
  calls : Nat
  tokens_in : Nat
  tokens_out : Nat
  usd_micros : Nat
  projectos_usd_micros : Nat

structure CostGroupRow where
  dimension : String
  key : Option String
  calls : Nat
  tokens_in : Nat
  tokens_out : Nat
  wall_ms_total : Nat
  usd_micros : Nat
  projectos_usd_micros : Nat

structure CostRollupReport where
  scope : String
  project_count : Nat
  rows : List CostRollupRow
  groups : List CostGroupRow
  totals : CostRollupTotals

def sumColumn (column : ModelCallRow → Nat) (calls : List ModelCallRow) : Nat :=
  (calls.map column).sum

def groupRow (calls : List ModelCallRow) (key : CostKey) : CostRollupRow :=
  let group := calls.filter fun call => call.toCostKey = key
  { project_id := key.project_id.toHex
    feature := key.feature
    agent := key.agent
    provider := key.provider
    credential_class := key.credential_class
    model := key.model
    provider_cost_kind := key.provider_cost_kind
    calls := group.length
    tokens_in := sumColumn ModelCallRow.tokens_in group
    tokens_out := sumColumn ModelCallRow.tokens_out group
    wall_ms_total := sumColumn ModelCallRow.wall_ms group
    usd_micros := sumColumn ModelCallRow.usd_micros group }

def CostRollupRow.fits (row : CostRollupRow) : Bool :=
  row.tokens_in < 2^63 && row.tokens_out < 2^63 && row.wall_ms_total < 2^63 &&
    row.usd_micros < 2^63

def CostRollupRow.le (left right : CostRollupRow) : Bool :=
  ((compare left.project_id right.project_id).then <|
    (compare left.feature right.feature).then <|
    (compare left.agent right.agent).then <|
    (compare left.provider right.provider).then <|
    (compare left.model right.model).then <|
    (compare left.credential_class right.credential_class).then <|
    compare left.provider_cost_kind right.provider_cost_kind).isLE

def costRows (calls : List ModelCallRow) : Except String (List CostRollupRow) :=
  let rows := (calls.map ModelCallRow.toCostKey).dedup.map (groupRow calls)
  if rows.all CostRollupRow.fits then .ok (rows.mergeSort CostRollupRow.le)
  else .error "integer overflow"

def gatherRows : List (List ModelCallRow) → Except String (List CostRollupRow)
  | [] => .ok []
  | calls :: projects =>
    match costRows calls with
    | .error e => .error e
    | .ok rows => (gatherRows projects).map (rows ++ ·)

def addU64 (a b : Nat) : Nat := (a+b) % 2^64

def CostRollupTotals.add (totals : CostRollupTotals) (row : CostRollupRow) : CostRollupTotals where
  calls := addU64 totals.calls row.calls
  tokens_in := addU64 totals.tokens_in row.tokens_in
  tokens_out := addU64 totals.tokens_out row.tokens_out
  usd_micros := addU64 totals.usd_micros row.usd_micros
  projectos_usd_micros :=
    if row.provider_cost_kind ≠ "customer_billed" then
      addU64 totals.projectos_usd_micros row.usd_micros
    else totals.projectos_usd_micros

def CostGroupRow.start (key : String ×ₗ WithBot String) : CostGroupRow :=
  ⟨(ofLex key).1,(ofLex key).2,0,0,0,0,0,0⟩

def CostGroupRow.add (bucket : CostGroupRow) (row : CostRollupRow) : CostGroupRow where
  dimension := bucket.dimension
  key := bucket.key
  calls := addU64 bucket.calls row.calls
  tokens_in := addU64 bucket.tokens_in row.tokens_in
  tokens_out := addU64 bucket.tokens_out row.tokens_out
  wall_ms_total := addU64 bucket.wall_ms_total row.wall_ms_total
  usd_micros := addU64 bucket.usd_micros row.usd_micros
  projectos_usd_micros :=
    if row.provider_cost_kind ≠ "customer_billed" then
      addU64 bucket.projectos_usd_micros row.usd_micros
    else bucket.projectos_usd_micros

def buckets (project_id feature : String) (agent : Option String) :
    List (String ×ₗ WithBot String) :=
  [toLex ("project",some project_id),toLex ("feature",some feature),toLex ("agent",agent)]

def CostRollupRow.buckets (row : CostRollupRow) : List (String ×ₗ WithBot String) :=
  Api.buckets row.project_id row.feature row.agent

def bucketed (rows : List CostRollupRow) : List ((String ×ₗ WithBot String) × CostRollupRow) :=
  rows.flatMap fun row => row.buckets.map fun key => (key,row)

def groupTable (rows : List CostRollupRow) : Table (String ×ₗ WithBot String) CostGroupRow :=
  Rollup.tally Prod.fst CostGroupRow.start (fun bucket entry => bucket.add entry.2)
    (bucketed rows) Table.empty

def groupRows (rows : List CostRollupRow) : List CostGroupRow :=
  (groupTable rows).rows.map Prod.snd

def costReport (named : Bool) (targets : Nat) (found : List CostRollupRow) : CostRollupReport :=
  let rows := found.mergeSort CostRollupRow.le
  { scope := if named then "project" else "session"
    project_count := min targets (2^32-1)
    rows := rows
    groups := groupRows rows
    totals := rows.foldl CostRollupTotals.add ⟨0,0,0,0,0⟩ }

def reportCosts (named : Bool) (projects : List (List ModelCallRow)) :
    Except String CostRollupReport :=
  (gatherRows projects).map (costReport named projects.length)

inductive Figure where
  | calls | tokensIn | tokensOut | usdMicros | projectosUsdMicros

def CostRollupRow.figure : Figure → CostRollupRow → Nat
  | .calls,row => row.calls
  | .tokensIn,row => row.tokens_in
  | .tokensOut,row => row.tokens_out
  | .usdMicros,row => row.usd_micros
  | .projectosUsdMicros,row =>
    if row.provider_cost_kind ≠ "customer_billed" then row.usd_micros else 0

def CostRollupTotals.figure : Figure → CostRollupTotals → Nat
  | .calls,totals => totals.calls
  | .tokensIn,totals => totals.tokens_in
  | .tokensOut,totals => totals.tokens_out
  | .usdMicros,totals => totals.usd_micros
  | .projectosUsdMicros,totals => totals.projectos_usd_micros

def CostGroupRow.figure : Figure → CostGroupRow → Nat
  | .calls,group => group.calls
  | .tokensIn,group => group.tokens_in
  | .tokensOut,group => group.tokens_out
  | .usdMicros,group => group.usd_micros
  | .projectosUsdMicros,group => group.projectos_usd_micros

def ModelCallRow.figure : Figure → ModelCallRow → Nat
  | .calls,_ => 1
  | .tokensIn,call => call.tokens_in
  | .tokensOut,call => call.tokens_out
  | .usdMicros,call => call.usd_micros
  | .projectosUsdMicros,call =>
    if call.provider_cost_kind = "customer_billed" then 0 else call.usd_micros

def dimensions : List String := ["project","feature","agent"]

def CostKey.keyIn (call : CostKey) (dimension : String) : Option String :=
  if dimension = "project" then some call.project_id.toHex
  else if dimension = "feature" then some call.feature else call.agent

def CostGroupRow.counts (group : CostGroupRow) (call : ModelCallRow) : Bool :=
  group.key = call.keyIn group.dimension

def CostKey.buckets (key : CostKey) : List (String ×ₗ WithBot String) :=
  Api.buckets key.project_id.toHex key.feature key.agent

variable {f : Figure} {rows : List CostRollupRow} {calls : List ModelCallRow}

theorem CostRollupTotals.add_figure (totals : CostRollupTotals) (row : CostRollupRow)
    (h : totals.figure f+row.figure f < 2^64) :
    (totals.add row).figure f = totals.figure f+row.figure f := by
  cases f with
  | projectosUsdMicros =>
    simp only [figure,add,CostRollupRow.figure] at h ⊢
    split_ifs at h ⊢
    · exact Nat.mod_eq_of_lt h
    · rfl
  | _ => exact Nat.mod_eq_of_lt h

theorem CostGroupRow.add_figure (bucket : CostGroupRow) (row : CostRollupRow)
    (h : bucket.figure f+row.figure f < 2^64) :
    (bucket.add row).figure f = bucket.figure f+row.figure f := by
  cases f with
  | projectosUsdMicros =>
    simp only [figure,add,CostRollupRow.figure] at h ⊢
    split_ifs at h ⊢
    · exact Nat.mod_eq_of_lt h
    · rfl
  | _ => exact Nat.mod_eq_of_lt h

def CostRollupRow.within (key : String ×ₗ WithBot String) (f : Figure) (row : CostRollupRow) : Nat :=
  if key ∈ row.buckets then row.figure f else 0

def ModelCallRow.within (key : String ×ₗ WithBot String) (f : Figure) (call : ModelCallRow) : Nat :=
  if key ∈ call.buckets then call.figure f else 0

theorem groupRow_figure (calls : List ModelCallRow) (key : CostKey) :
    (groupRow calls key).figure f =
      Rollup.sumAt ModelCallRow.toCostKey (ModelCallRow.figure f) calls key := by
  cases f with
  | calls =>
    have hone : ModelCallRow.figure .calls = fun _ => 1 := rfl
    simp [CostRollupRow.figure,groupRow,Rollup.sumAt,hone]
  | tokensIn | tokensOut | usdMicros => rfl
  | projectosUsdMicros =>
    by_cases hkind : key.provider_cost_kind = "customer_billed"
    · refine (if_neg (not_not.mpr hkind)).trans ?_
      exact (Rollup.sumAt_zero _ _ fun call hcall => if_pos (hcall ▸ hkind)).symm
    · refine (if_pos hkind).trans (Rollup.sumAt_congr _ _ fun call hcall => ?_)
      exact (if_neg (hcall ▸ hkind)).symm

theorem groupRow_within (bucket : String ×ₗ WithBot String) (calls : List ModelCallRow)
    (key : CostKey) :
    (groupRow calls key).within bucket f =
      Rollup.sumAt ModelCallRow.toCostKey (ModelCallRow.within bucket f) calls key := by
  by_cases hbucket : bucket ∈ key.buckets
  · refine (if_pos hbucket).trans ((groupRow_figure calls key).trans ?_)
    refine Rollup.sumAt_congr _ _ fun call hcall => ?_
    exact (if_pos (hcall ▸ hbucket)).symm
  · refine (if_neg hbucket).trans ?_
    exact (Rollup.sumAt_zero _ _ fun call hcall => if_neg (hcall ▸ hbucket)).symm

/-- What the rows add up to is what the calls add up to, within every bucket. -/
structure Conserved (rows : List CostRollupRow) (calls : List ModelCallRow) : Prop where
  total : ∀ f, (rows.map (CostRollupRow.figure f)).sum = (calls.map (ModelCallRow.figure f)).sum
  within : ∀ bucket f, (rows.map (CostRollupRow.within bucket f)).sum =
    (calls.map (ModelCallRow.within bucket f)).sum
  reached : ∀ bucket,
    (∃ row ∈ rows, bucket ∈ row.buckets) ↔ ∃ call ∈ calls, bucket ∈ call.buckets

variable {rows' : List CostRollupRow}

theorem Conserved.append {calls' : List ModelCallRow}
    (h : Conserved rows calls) (h' : Conserved rows' calls') :
    Conserved (rows ++ rows') (calls ++ calls') where
  total f := by simp only [map_append,sum_append,h.total,h'.total]
  within bucket f := by simp only [map_append,sum_append,h.within,h'.within]
  reached bucket := by
    simp only [mem_append,or_and_right,exists_or,h.reached,h'.reached]

theorem Conserved.perm (h : Conserved rows calls)
    (hperm : rows'.Perm rows) : Conserved rows' calls where
  total f := ((hperm.map _).sum_eq).trans (h.total f)
  within bucket f := ((hperm.map _).sum_eq).trans (h.within bucket f)
  reached bucket := by
    simp only [hperm.mem_iff,h.reached]

theorem groups_conserved (calls : List ModelCallRow) :
    Conserved ((calls.map ModelCallRow.toCostKey).dedup.map (groupRow calls)) calls := by
  have hkeys : ∀ call ∈ calls,
      call.toCostKey ∈ (calls.map ModelCallRow.toCostKey).dedup := fun call hcall =>
    mem_dedup.mpr (mem_map_of_mem hcall)
  refine ⟨fun f => ?_,fun bucket f => ?_,fun bucket => ?_⟩
  · rw [← Rollup.sum_sumAt _ _ (nodup_dedup _) hkeys,map_map]
    exact congrArg List.sum (map_congr_left fun key _ => groupRow_figure calls key)
  · rw [← Rollup.sum_sumAt _ _ (nodup_dedup _) hkeys,map_map]
    exact congrArg List.sum (map_congr_left fun key _ => groupRow_within bucket calls key)
  · constructor
    · rintro ⟨row,hrow,hbucket⟩
      obtain ⟨key,hkey,rfl⟩ := mem_map.mp hrow
      obtain ⟨call,hcall,rfl⟩ := mem_map.mp (mem_dedup.mp hkey)
      exact ⟨call,hcall,hbucket⟩
    · rintro ⟨call,hcall,hbucket⟩
      exact ⟨_,mem_map_of_mem (hkeys call hcall),hbucket⟩

def columns : List (ModelCallRow → Nat) :=
  [ModelCallRow.tokens_in,ModelCallRow.tokens_out,ModelCallRow.wall_ms,ModelCallRow.usd_micros]

theorem costRows_ok (hsums : ∀ column ∈ columns, (calls.map column).sum < 2^63) :
    ∃ rows, costRows calls = .ok rows ∧ Conserved rows calls := by
  have hfits : ((calls.map ModelCallRow.toCostKey).dedup.map (groupRow calls)).all
      CostRollupRow.fits = true := by
    refine all_eq_true.mpr fun row hrow => ?_
    obtain ⟨key,-,rfl⟩ := mem_map.mp hrow
    have hcolumn : ∀ column ∈ columns,
        sumColumn column (calls.filter fun call => call.toCostKey = key) < 2^63 :=
      fun column hcolumn => lt_of_le_of_lt
        (Rollup.sumAt_le ModelCallRow.toCostKey column calls key) (hsums column hcolumn)
    simp only [columns,forall_mem_cons] at hcolumn
    obtain ⟨hin,hout,hwall,husd,-⟩ := hcolumn
    simp only [CostRollupRow.fits,groupRow,hin,hout,hwall,husd,decide_true,Bool.and_self]
  refine ⟨_,by rw [costRows,if_pos hfits],?_⟩
  exact (groups_conserved calls).perm (mergeSort_perm _ _)

theorem gatherRows_ok {projects : List (List ModelCallRow)}
    (hsums : ∀ column ∈ columns, (projects.flatten.map column).sum < 2^63) :
    ∃ rows, gatherRows projects = .ok rows ∧ Conserved rows projects.flatten := by
  induction projects with
  | nil => exact ⟨[],rfl,⟨fun _ => rfl,fun _ _ => rfl,fun _ => by simp⟩⟩
  | cons calls projects ih =>
    have hpart : ∀ column ∈ columns, (calls.map column).sum < 2^63 ∧
        (projects.flatten.map column).sum < 2^63 := by
      intro column hcolumn
      have hsum := hsums column hcolumn
      rw [flatten_cons,map_append,sum_append] at hsum
      omega
    obtain ⟨rows,hrows,hone⟩ := costRows_ok fun column hcolumn => (hpart column hcolumn).1
    obtain ⟨rest,hrest,hothers⟩ := ih fun column hcolumn => (hpart column hcolumn).2
    refine ⟨rows ++ rest,?_,hone.append hothers⟩
    rw [gatherRows,hrows,hrest]
    rfl

theorem bucketed_keys (rows : List CostRollupRow) :
    (bucketed rows).map Prod.fst = rows.flatMap CostRollupRow.buckets := by
  simp [bucketed,map_flatMap,Function.comp_def]

theorem buckets_nodup (row : CostRollupRow) : row.buckets.Nodup := by
  have hdimensions : row.buckets.map (fun key => (ofLex key).1) = dimensions := rfl
  refine List.Nodup.of_map (fun key => (ofLex key).1) ?_
  rw [hdimensions]
  decide

theorem sumAt_bucketed (key : String ×ₗ WithBot String) (rows : List CostRollupRow) :
    Rollup.sumAt Prod.fst (fun entry => entry.2.figure f) (bucketed rows) key =
      (rows.map (CostRollupRow.within key f)).sum := by
  induction rows with
  | nil => rfl
  | cons row rows ih =>
    rw [bucketed,flatMap_cons,Rollup.sumAt_append,Rollup.sumAt_each _ (buckets_nodup row),
      map_cons,sum_cons,← ih]
    by_cases hkey : key ∈ row.buckets <;> simp only [CostRollupRow.within,hkey,if_true,if_false] <;>
      rfl

def CostGroupRow.at (group : CostGroupRow) : String ×ₗ WithBot String :=
  toLex (group.dimension,group.key)

theorem foldl_add_at (entries : List ((String ×ₗ WithBot String) × CostRollupRow))
    (bucket : CostGroupRow) :
    (entries.foldl (fun bucket entry => bucket.add entry.2) bucket).at = bucket.at := by
  induction entries generalizing bucket with
  | nil => rfl
  | cons entry entries ih => exact ih (bucket.add entry.2)

theorem within_le (key : String ×ₗ WithBot String) (rows : List CostRollupRow) :
    (rows.map (CostRollupRow.within key f)).sum ≤ (rows.map (CostRollupRow.figure f)).sum := by
  refine sum_le_sum fun row _ => ?_
  unfold CostRollupRow.within
  split_ifs <;> omega

theorem start_figure (key : String ×ₗ WithBot String) : (CostGroupRow.start key).figure f = 0 := by
  cases f <;> rfl

variable {key : String ×ₗ WithBot String} {group : CostGroupRow}

theorem groupTable_at (h : (groupTable rows).get? key = some group) : group.at = key := by
  rw [groupTable,Rollup.get?_tally_empty] at h
  split_ifs at h
  obtain rfl := Option.some.inj h
  exact foldl_add_at _ _

theorem groupTable_figure (hsums : ∀ f, (rows.map (CostRollupRow.figure f)).sum < 2^63)
    (h : (groupTable rows).get? key = some group) (f : Figure) :
    group.figure f = (rows.map (CostRollupRow.within key f)).sum := by
  rw [groupTable,Rollup.get?_tally_empty] at h
  split_ifs at h
  obtain rfl := Option.some.inj h
  have hzero := start_figure (f := f) key
  have hsum := sumAt_bucketed (f := f) key rows
  have hbound := lt_of_le_of_lt (within_le key rows) (hsums f)
  rw [Rollup.foldl_sum (2^64) (CostGroupRow.figure f) fun entry => CostRollupRow.figure f entry.2]
  · rw [hzero,Nat.zero_add]
    exact hsum
  · exact fun bucket entry => CostGroupRow.add_figure bucket entry.2
  · rw [hzero,Nat.zero_add]
    refine lt_of_eq_of_lt hsum ?_
    omega

theorem groupRows_keys (rows : List CostRollupRow) :
    (groupRows rows).map CostGroupRow.at = (groupTable rows).rows.map Prod.fst := by
  rw [groupRows,map_map]
  exact map_congr_left fun row hrow => groupTable_at ((groupTable rows).mem_rows.mp hrow)

theorem groupRows_nodup (rows : List CostRollupRow) :
    ((groupRows rows).map CostGroupRow.at).Nodup := by
  rw [groupRows_keys]
  exact pairwise_map.mpr ((groupTable rows).sorted.imp fun h => h.ne)

theorem mem_groupRows_keys :
    key ∈ (groupRows rows).map CostGroupRow.at ↔ ∃ row ∈ rows, key ∈ row.buckets := by
  rw [groupRows_keys,← mem_flatMap,← bucketed_keys]
  constructor
  · intro h
    obtain ⟨⟨key,group⟩,hrow,rfl⟩ := mem_map.mp h
    have hget := (groupTable rows).mem_rows.mp hrow
    rw [groupTable,Rollup.get?_tally_empty] at hget
    by_contra hnot
    rw [if_neg hnot] at hget
    cases hget
  · intro h
    have hget := Rollup.get?_tally_empty Prod.fst CostGroupRow.start
      (fun bucket entry => bucket.add entry.2) (bucketed rows) key
    rw [if_pos h] at hget
    exact mem_map.mpr ⟨_,(groupTable rows).mem_rows.mpr hget,rfl⟩

theorem mem_buckets {dimension : String} (hdimension : dimension ∈ dimensions) (call : CostKey)
    (k : Option String) :
    (toLex (dimension,k) : String ×ₗ WithBot String) ∈ call.buckets ↔
      k = call.keyIn dimension := by
  have hmem : (toLex (dimension,k) : String ×ₗ WithBot String) ∈ call.buckets ↔
      (dimension,k) ∈ [("project",some call.project_id.toHex),("feature",some call.feature),
        ("agent",call.agent)] := Iff.rfl
  rw [hmem]
  simp only [dimensions,mem_cons,not_mem_nil,or_false] at hdimension
  rcases hdimension with rfl | rfl | rfl <;> simp [CostKey.keyIn]

theorem dimension_mem {call : CostKey} (h : group.at ∈ call.buckets) :
    group.dimension ∈ dimensions :=
  mem_map_of_mem (f := fun key => (ofLex key).1) h

theorem at_mem_buckets (h : ∃ call ∈ calls, group.at ∈ call.buckets) (call : ModelCallRow) :
    group.at ∈ call.buckets ↔ group.counts call = true := by
  obtain ⟨other,-,hother⟩ := h
  rw [CostGroupRow.counts,decide_eq_true_eq]
  exact mem_buckets (dimension_mem hother) call.toCostKey group.key

theorem sum_within (hgroup : ∃ call ∈ calls, group.at ∈ call.buckets) :
    (calls.map (ModelCallRow.within group.at f)).sum =
      ((calls.filter group.counts).map (ModelCallRow.figure f)).sum := by
  have hwithin : ModelCallRow.within group.at f =
      fun call => if group.counts call = true then call.figure f else 0 := by
    funext call
    exact if_congr (at_mem_buckets hgroup call) rfl rfl
  rw [hwithin,sum_map_ite]
  simp

theorem groups_of_dimension {groups : List CostGroupRow} {dimension : String}
    (hnodup : (groups.map CostGroupRow.at).Nodup)
    (hfigure : ∀ group ∈ groups, ∀ f, group.figure f =
      ((calls.filter group.counts).map (ModelCallRow.figure f)).sum)
    (hreached : ∀ call ∈ calls, ∃ group ∈ groups, group.dimension = dimension ∧
      group.key = call.keyIn dimension) :
    ((groups.filter fun group => group.dimension = dimension).map
      (CostGroupRow.figure f)).sum = (calls.map (ModelCallRow.figure f)).sum := by
  have hkeys : ((groups.filter fun group => group.dimension = dimension).map
      CostGroupRow.key).Nodup := by
    refine List.Nodup.of_map (fun k => (toLex (dimension,k) : String ×ₗ Option String)) ?_
    rw [map_map]
    refine (map_congr_left fun group hgroup => ?_) ▸
      hnodup.sublist (filter_sublist.map CostGroupRow.at)
    rw [CostGroupRow.at,of_decide_eq_true (mem_filter.mp hgroup).2]
    rfl
  rw [← Rollup.sum_sumAt (fun call : ModelCallRow => call.keyIn dimension) _ hkeys]
  · rw [map_map]
    refine congrArg List.sum (map_congr_left fun group hgroup => ?_)
    obtain ⟨hmem,hdimension⟩ := mem_filter.mp hgroup
    obtain rfl := of_decide_eq_true hdimension
    have hcounts : group.counts = fun call => decide (call.keyIn group.dimension = group.key) := by
      funext call
      simp only [CostGroupRow.counts,eq_comm]
    rw [hfigure group hmem,Function.comp_apply,Rollup.sumAt,hcounts]
  · intro call hcall
    obtain ⟨group,hgroup,hdimension,hkey⟩ := hreached call hcall
    exact hkey ▸ mem_map_of_mem (mem_filter.mpr ⟨hgroup,decide_eq_true hdimension⟩)

theorem figure_bounded (hsums : ∀ column ∈ columns, (calls.map column).sum < 2^63)
    (hcalls : calls.length < 2^63) (f : Figure) :
    (calls.map (ModelCallRow.figure f)).sum < 2^63 := by
  have husd := hsums ModelCallRow.usd_micros (by simp [columns])
  cases f with
  | calls =>
    have hone : ModelCallRow.figure .calls = fun _ => 1 := rfl
    simpa [hone] using hcalls
  | tokensIn => exact hsums ModelCallRow.tokens_in (by simp [columns])
  | tokensOut => exact hsums ModelCallRow.tokens_out (by simp [columns])
  | usdMicros => exact husd
  | projectosUsdMicros =>
    refine lt_of_le_of_lt (sum_le_sum fun call _ => ?_) husd
    change (if call.provider_cost_kind = "customer_billed" then 0 else call.usd_micros) ≤ _
    split_ifs <;> omega

/-- Over any projects and calls, with sums their types can hold. -/
theorem cost_rollup_conserves (named : Bool) (projects : List (List ModelCallRow))
    (hsums : ∀ column ∈ columns, (projects.flatten.map column).sum < 2^63)
    (hcalls : projects.flatten.length < 2^63) :
    ∃ report, reportCosts named projects = .ok report ∧
      (∀ f, report.totals.figure f = (projects.flatten.map (ModelCallRow.figure f)).sum) ∧
      (∀ dimension ∈ dimensions, ∀ f,
        ((report.groups.filter fun group => group.dimension = dimension).map
          (CostGroupRow.figure f)).sum = report.totals.figure f) ∧
      (∀ group ∈ report.groups, ∀ f, group.figure f =
        ((projects.flatten.filter group.counts).map (ModelCallRow.figure f)).sum) ∧
      (report.groups.map CostGroupRow.at).Nodup ∧
      ∀ call ∈ projects.flatten, ∀ dimension ∈ dimensions,
        ∃ group ∈ report.groups, group.dimension = dimension ∧
          group.key = call.keyIn dimension := by
  obtain ⟨found,hfound,hkept⟩ := gatherRows_ok hsums
  have h := hkept.perm (mergeSort_perm found CostRollupRow.le)
  have hrows := fun f => lt_of_eq_of_lt (h.total f) (figure_bounded hsums hcalls f)
  have hfigure : ∀ group ∈ groupRows (found.mergeSort CostRollupRow.le), ∀ f, group.figure f =
      ((projects.flatten.filter group.counts).map (ModelCallRow.figure f)).sum := by
    intro group hgroup f
    have hat := (h.reached _).mp (mem_groupRows_keys.mp (mem_map_of_mem hgroup))
    obtain ⟨⟨key,group⟩,hrow,rfl⟩ := mem_map.mp hgroup
    have hget := (groupTable _).mem_rows.mp hrow
    rw [groupTable_figure hrows hget,← groupTable_at hget,h.within,sum_within hat]
  have hreached : ∀ call ∈ projects.flatten, ∀ dimension ∈ dimensions,
      ∃ group ∈ groupRows (found.mergeSort CostRollupRow.le), group.dimension = dimension ∧
        group.key = call.keyIn dimension := by
    intro call hcall dimension hdimension
    have hbucket := (mem_buckets hdimension call.toCostKey _).mpr rfl
    obtain ⟨group,hgroup,hat⟩ :=
      mem_map.mp (mem_groupRows_keys.mpr ((h.reached _).mpr ⟨call,hcall,hbucket⟩))
    obtain ⟨hdim,hkey⟩ := Prod.mk.inj (toLex_inj.mp hat)
    exact ⟨group,hgroup,hdim,hkey⟩
  have htotals : ∀ f, ((found.mergeSort CostRollupRow.le).foldl CostRollupTotals.add
      ⟨0,0,0,0,0⟩).figure f = (projects.flatten.map (ModelCallRow.figure f)).sum := by
    intro f
    have hzero : CostRollupTotals.figure f ⟨0,0,0,0,0⟩ = 0 := by cases f <;> rfl
    rw [Rollup.foldl_sum (2^64) _ _ CostRollupTotals.add_figure,hzero,Nat.zero_add,h.total]
    rw [hzero,Nat.zero_add]
    exact (hrows f).trans (by decide)
  refine ⟨_,by rw [reportCosts,hfound]; rfl,htotals,fun dimension hdimension f => ?_,hfigure,
    groupRows_nodup _,hreached⟩
  exact (groups_of_dimension (groupRows_nodup _) hfigure fun call hcall =>
    hreached call hcall dimension hdimension).trans (htotals f).symm

def ledger : List (List ModelCallRow) :=
  [[⟨⟨⟨1⟩,"chat",none,"anthropic","byok","opus","customer_billed"⟩,10,20,30,40⟩,
    ⟨⟨⟨1⟩,"chat",some "writer","anthropic","managed","opus","measured"⟩,1,2,3,4⟩],
   [⟨⟨⟨2⟩,"embed",none,"local","managed","bge","estimated"⟩,5,0,6,7⟩]]

theorem ledger_conserved : ∃ report, reportCosts false ledger = .ok report ∧
    report.totals.usd_micros = 51 ∧ report.totals.projectos_usd_micros = 11 := by
  obtain ⟨report,hreport,htotals,-⟩ := cost_rollup_conserves false ledger (by decide) (by decide)
  exact ⟨report,hreport,htotals .usdMicros,htotals .projectosUsdMicros⟩

end ProjectOS.Api
