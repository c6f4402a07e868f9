import Legible.Proofs.Script.Expression

namespace Legible.Script

open Std.Do Read Contents

set_option mvcgen.warning false

attribute [local simp] fills_iff slots? grammarTable List.lookup_cons Fields.get reads_null

theorem reads_binaryExpression {left right : Tree} (hleft : (one expressionKinds).Reads left)
    (hright : (one expressionKinds).Reads right) (operator : String) :
    (one expressionKinds).Reads (Form.binaryExpression operator left right) := by
  unfold Form.binaryExpression
  split <;> exact reads_node (by decide) (by simp [hleft, hright])

/-! ### Binding strengths -/

def Waits (ps : List Pending) : Prop :=
  ∀ p ∈ ps, (one expressionKinds).Reads p.left

theorem waits_settle (strength : Nat) {ps : List Pending} {t : Tree} (hps : Waits ps)
    (ht : (one expressionKinds).Reads t) : Waits (settle strength ps t).1 ∧
      (one expressionKinds).Reads (settle strength ps t).2 := by
  induction ps generalizing t with
  | nil => exact ⟨hps, ht⟩
  | cons p ps ih =>
    obtain ⟨hp, hps'⟩ := List.forall_mem_cons.mp hps
    rw [settle]
    split
    · exact ih hps' (reads_binaryExpression hp ht _)
    · exact ⟨hps, ht⟩

variable {g : Grammar} (hg : g.Sound) (c : Context)

include hg

theorem update_spec : Makes expressionKinds (update g c) := by
  have hunary := shared_spec (hg.unary c)
  have hchain := shared_spec (chain_spec hg c true)
  unfold update
  mvcgen [hunary, hchain] <;> exact reads_node (by decide) (by simp [*])

theorem unary_spec : Makes expressionKinds (unary g c) := by
  have hshared := shared_spec (hg.unary c)
  have hunary := hg.unary c
  have hupdate := update_spec hg c
  unfold unary
  mvcgen [hshared, hunary, hupdate] <;> exact reads_node (by decide) (by simp [*])

theorem power_spec : Makes expressionKinds (power g c) := by
  have hbase := shared_spec (unary_spec hg c)
  have hpower := isolated_spec (hg.power c)
  unfold power
  mvcgen [hbase, hpower]
  exact reads_binaryExpression ‹_› ‹_› _

theorem binary_spec : Makes expressionKinds (binary g c) := by
  have hfirst := shared_spec (power_spec hg c)
  have hnext := isolated_spec (power_spec hg c)
  have hoperations := @repeatStep_spec (List Pending × Tree) Tree
    (fun acc => Waits acc.1 ∧ (one expressionKinds).Reads acc.2) (one expressionKinds).Reads
  unfold binary
  mvcgen [hfirst, hnext, hoperations]
  case vc2 acc hacc _ _ _ _ _ =>
    exact (waits_settle 0 hacc.1 hacc.2).2
  case vc3 acc hacc _ _ strength _ _ _ _ _ _ h =>
    obtain ⟨hps, ht⟩ := waits_settle strength hacc.1 hacc.2
    exact ⟨List.forall_mem_cons.mpr ⟨ht, hps⟩, h⟩
  case vc4 =>
    exact fun _ => ⟨by simp [Waits], ‹_›⟩

theorem conditional_spec : Makes expressionKinds (conditional g c) := by
  have htest := shared_spec (binary_spec hg c)
  have hbranch := fun c => isolated_spec (hg.assignment c)
  unfold conditional
  mvcgen [htest, hbranch]
  exact reads_node (by decide) (by simp [*])

/-! ### Assignments -/

theorem yieldExpression_spec : Makes expressionKinds (yieldExpression g c) := by
  have hargument := triple_mono (hg.assignment c) fun _ => Reads.orNull
  have hyield := @withYieldIsName_spec Tree
  unfold yieldExpression
  mvcgen [hargument, hyield] <;> exact reads_node (by decide) (by simp [*])

omit hg in
theorem reads_yieldAsName {p q : Tree} (hp : (one parameterKinds).Reads p)
    (h : yieldAsName p = some q) : (one parameterKinds).Reads q := by
  simp only [yieldAsName] at h
  split at h
  · rename_i hk
    rw [Bool.and_eq_true] at hk
    have hleft : (one targetKinds).Reads (p.get "left") :=
      hp.slot hk.1 (looseSlots?_eq rfl) List.mem_cons_self
    split at h
    · cases h
      exact reads_assignmentPattern (by decide) hleft (reads_identifier (by decide) _)
    · cases h
  · cases h
    exact hp

omit hg in
theorem forall_mem_of_mapM {α β : Type} {f : α → Option β} {Q : β → Prop} {l : List α} {bs : List β}
    (h : ∀ a ∈ l, ∀ b, f a = some b → Q b) (hl : l.mapM f = some bs) : ∀ b ∈ bs, Q b := by
  induction l generalizing bs with
  | nil =>
    cases hl
    exact nofun
  | cons a l ih =>
    obtain ⟨ha, hl'⟩ := List.forall_mem_cons.mp h
    simp only [List.mapM_cons, Option.bind_eq_bind, Option.bind_eq_some_iff] at hl
    obtain ⟨b, hb, bs', hbs', hbs⟩ := hl
    cases hbs
    exact List.forall_mem_cons.mpr ⟨ha b hb, ih hl' hbs'⟩

omit hg in
theorem reads_checkedParameters {strict isAsync : Bool} {ps qs : List Tree}
    (hps : ∀ p ∈ ps, (one parameterKinds).Reads p)
    (h : checkedParameters strict isAsync ps = some qs) :
    ∀ q ∈ qs, (one parameterKinds).Reads q := by
  simp only [checkedParameters, Option.bind_eq_bind, Option.bind_eq_some_iff] at h
  obtain ⟨rs, hrs, -, -, -, -, -, -, h⟩ := h
  cases h
  exact forall_mem_of_mapM (fun p hp q hq => reads_yieldAsName (hps p hp) hq) hrs

omit hg in
theorem reads_arrowParameters? {e : Tree} (he : (one expressionKinds).Reads e) {ps : List Tree}
    {isAsync : Bool} (h : arrowParameters? e = some (ps, isAsync)) :
    ∀ p ∈ ps, (one parameterKinds).Reads p := by
  unfold arrowParameters? at h
  split at h
  · cases h
    exact List.forall_mem_singleton.mpr (Reads.widen he (by decide))
  · split at h
    · cases h
      exact reads_params he ‹_›
    · cases h

theorem arrowTail_spec {params : List Tree} (hps : ∀ p ∈ params, (one parameterKinds).Reads p)
    (isAsync : Bool) :
    Makes expressionKinds (arrowTail g c params isAsync) := by
  have hbraces := fun c => widen_spec (expressionKinds ++ ["BlockStatement"])
    (functionBody_spec hg c) (by decide)
  have hexpression := fun c => widen_spec (expressionKinds ++ ["BlockStatement"])
    (isolated_spec (hg.assignment c)) (by decide)
  have hbody := fun body => @bodyAfter_spec body (one (expressionKinds ++ ["BlockStatement"])).Reads
  have hyield := @withYieldIsName_spec Tree
  have hparams := fun strict =>
    lift_spec fun qs => @reads_checkedParameters strict isAsync params qs hps
  unfold arrowTail
  mvcgen [hbraces, hexpression, hyield, hbody, hparams]
  exact reads_node (by decide) (by simpa [*] using ‹∀ t ∈ _, _›)

theorem assignmentTail_spec {left : Tree} (hleft : (one expressionKinds).Reads left) :
    Makes expressionKinds (assignmentTail g c left) := by
  have hright := isolated_spec (hg.assignment c)
  unfold assignmentTail
  have hpattern : (one targetKinds).Reads (asPattern left) := reads_recast hleft (by decide)
  have htarget : (one targetKinds).Reads left := Reads.widen hleft (by decide)
  mvcgen [hright] <;>
  · refine reads_node (by decide) ?_
    split <;> simp [*]

theorem assignment_spec : Makes expressionKinds (assignment g c) := by
  have hyield := yieldExpression_spec hg c
  have hconditional := conditional_spec hg c
  have hprimary := primary_spec hg c
  have harrow := @arrowTail_spec _ hg c
  have htail := @assignmentTail_spec _ hg c
  unfold assignment
  mvcgen [hyield, hconditional, hprimary, harrow, htail]
  · have hparams := List.forall_mem_singleton.mpr
      (reads_recast ‹_› (by decide) : (one parameterKinds).Reads (asPattern _))
    exact fun _ => reads_arrowParameters? (reads_arrowParameters hparams _) ‹_›
  · exact fun _ => reads_arrowParameters? ‹_› ‹_›
  · exact fun _ => ‹_›

end Legible.Script
