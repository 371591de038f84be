import AegisDB.Inference.Pass
import AegisDB.Query.Infer

/-!
# The writes of the inference job

An inference step relates records and inserts conclusions, and does nothing else to the database.
`Derives` is what a property has to be stable under for a step to keep it (`Derives.inferenceStep`);
the property may count the ids that the step has used, of which `idsNeeded` is a bound. A retraction
step and a sweep only delete.
-/

namespace AegisDB

open Bytes List

variable {F : Framing}
variable {n : ℕ} {s : Reasoner F}
variable {group : List MemoryRecord}

def Reasoner.fresh (cfg : DbConfig) (nonces : ℕ → F.Nonce) : Reasoner F :=
  ⟨.create cfg nonces, 0, 0, [], []⟩

/-- The number of ids an inference step may use. -/
def idsNeeded (env : Sample) (icfg : InferConfig) (s : Reasoner F) : ℕ :=
  s.db.ix.facts.elim 0 fun f => (namespaceGroups (loadFacts env s.db f)).length * icfg.maxDerived

variable (mul : F32 → F32 → F32) (icfg : InferConfig) (cfg : DbConfig) (env : Sample)

/-- A conclusion that a pass over the facts of some records may draw. -/
def Concludes (group : List MemoryRecord) (c : InferConclusion) : Prop :=
  ∃ opts, c ∈ (inferRun mul cfg.predicates (group.filterMap inferFact) opts).items

/-- What is stable under the writes of an inference step, as long as there is room for the ids it
uses. -/
structure Derives (groups : List (List MemoryRecord)) (room : ℕ) (P : ℕ → Database F → Prop) :
    Prop where
  mono : ∀ {n m db}, n ≤ m → P n db → P m db
  relate : ∀ n db fromId toId kind ns, P n db → P n (qeRelate cfg env db fromId toId kind ns).1
  insert : ∀ n db group c input, group ∈ groups → Concludes mul cfg group c →
    conclusionRecord env db c (group.head?.bind factScope) = some input → n < room → P n db →
      P (n + 1) (qeInsert cfg env db input none 0).1

namespace Derives

variable {mul icfg cfg env} {groups : List (List MemoryRecord)} {room : ℕ}
  {P : ℕ → Database F → Prop}

section

variable (h : Derives mul cfg env groups room P)

include h

theorem linkPremises (hs : P n s.db) (ns : Option CString) (id : UInt64) (premises : List UInt64) :
    P n (linkPremises cfg env ns id premises s).db := by
  refine foldlRecOn premises _ (motive := fun (s : Reasoner F) => P n s.db) hs fun s hs p _ => ?_
  have hrel := h.relate n s.db id p (some derivedFrom) ns hs
  generalize qeRelate cfg env s.db id p (some derivedFrom) ns = x at hrel
  obtain ⟨d, res⟩ := x
  split <;> simp_all

theorem noteConflicts {db : Database F} (hdb : P n db) (registry : List PredicateSpec)
    (groups' : List (List MemoryRecord)) :
    P n (noteConflicts cfg env registry groups' db) := by
  refine foldlRecOn groups' _
    (motive := fun (s : Database F × List (UInt64 × UInt64)) => P n s.1) hdb fun s hs group _ => ?_
  refine foldlRecOn (conflictPairs registry group) _
    (motive := fun (s : Database F × List (UInt64 × UInt64)) => P n s.1) hs fun s hs x _ => ?_
  dsimp only
  split_ifs
  · exact hs
  · unfold noteConflict
    split_ifs
    · exact hs
    · exact h.relate _ _ _ _ _ _ (h.relate _ _ _ _ _ _ hs)

theorem writeConclusion (hgroup : group ∈ groups) {c : InferConclusion}
    (hc : Concludes mul cfg group c) (hroom : n < room) (hs : P n s.db) :
    P (n + 1) (writeConclusion cfg env (group.head?.bind factScope) c s).1.db := by
  unfold AegisDB.writeConclusion
  cases hrec : conclusionRecord env s.db c (group.head?.bind factScope) with
  | none => exact h.mono (Nat.le_succ n) hs
  | some input =>
    have hdb := h.insert n s.db group c input hgroup hc hrec hroom hs
    dsimp only
    generalize qeInsert cfg env s.db input none 0 = x at hdb
    obtain ⟨d, _ | written⟩ := x
    · exact hdb
    · exact h.linkPremises hdb _ _ _

theorem writeConclusions (hgroup : group ∈ groups) {cs : List InferConclusion}
    (hcs : ∀ c ∈ cs, Concludes mul cfg group c) (hroom : n + cs.length ≤ room) (hs : P n s.db) :
    P (n + cs.length) (writeConclusions cfg env (group.head?.bind factScope) cs s).1.db := by
  induction cs generalizing s n with
  | nil => exact hs
  | cons c cs ih =>
    rw [length_cons] at hroom ⊢
    have hhead := h.writeConclusion hgroup (hcs c mem_cons_self) (by omega) hs
    have hrest := ih (fun c' hc' => hcs c' (mem_cons_of_mem c hc')) (by omega) hhead
    rw [show n + (cs.length + 1) = n + 1 + cs.length by omega]
    exact hrest

end

variable (icfg) in
theorem runNamespace (h : Derives mul cfg env groups room P) {s : StepState F}
    (hgroup : group ∈ groups) (hbudget : s.derivedBudget ≠ 0)
    (hroom : n + s.derivedBudget ≤ room) (hs : P n s.reasoner.db) :
    P (n + s.derivedBudget) (runNamespace mul icfg cfg env group s).reasoner.db := by
  have hlen : (inferRun mul cfg.predicates (group.filterMap inferFact)
      (passOpts icfg s)).items.length ≤ s.derivedBudget :=
    (passBounds_inferRun mul cfg.predicates (group.filterMap inferFact)
      (passOpts icfg s)).length hbudget
  have hcs : ∀ c ∈ (inferRun mul cfg.predicates (group.filterMap inferFact)
      (passOpts icfg s)).items, Concludes mul cfg group c := fun c hc => ⟨passOpts icfg s, hc⟩
  unfold AegisDB.runNamespace
  generalize inferRun mul cfg.predicates (group.filterMap inferFact) (passOpts icfg s) = res
    at hlen hcs
  have hwrite := h.writeConclusions hgroup hcs (by omega) hs
  dsimp only
  generalize AegisDB.writeConclusions cfg env (group.head?.bind factScope) res.items s.reasoner = x
    at hwrite
  have hdb : P (n + s.derivedBudget) x.1.db := h.mono (by omega) hwrite
  split_ifs
  · exact hdb
  · exact hdb

variable (icfg) in
theorem runNamespaces (h : Derives mul cfg env groups room P) {m : ℕ}
    {groups' : List (List MemoryRecord)} (hsub : ∀ g ∈ groups', g ∈ groups) {s : StepState F}
    (hbudget : s.derivedBudget ≤ m) (hroom : n + groups'.length * m ≤ room) (hs : P n s.reasoner.db)
    :
    P (n + groups'.length * m) (runNamespaces mul icfg cfg env groups' s).reasoner.db := by
  induction groups' generalizing s n with
  | nil => exact h.mono (Nat.le_add_right _ _) hs
  | cons group groups' ih =>
    rw [length_cons, Nat.succ_mul] at hroom ⊢
    unfold AegisDB.runNamespaces
    split_ifs with hspent
    · exact h.mono (by omega) hs
    · have hrun := h.runNamespace icfg (hsub group mem_cons_self)
        (fun hzero => hspent (.inl hzero)) (by omega) hs
      have hrest := ih (fun g hg => hsub g (mem_cons_of_mem group hg))
        ((Nat.sub_le _ _).trans hbudget) (by omega) (h.mono (show n + _ ≤ n + m by omega) hrun)
      rw [show n + (groups'.length * m + m) = n + m + groups'.length * m by omega]
      exact hrest

variable (icfg) in
/-- The loops of a step: the contradictions of all groups, and then the conclusions of each. -/
theorem loops (h : Derives mul cfg env groups room P)
    (hroom : groups.length * icfg.maxDerived ≤ room) (hs : P 0 s.db) (registry : List PredicateSpec)
    (start : ℕ) :
    P (groups.length * icfg.maxDerived) (AegisDB.runNamespaces mul icfg cfg env
      (groups.rotate start)
      ⟨{ s with db := AegisDB.noteConflicts cfg env registry (groups.rotate start) s.db },
        icfg.maxDerived, icfg.maxCandidates, false, 0⟩).reasoner.db := by
  have hsub : ∀ g ∈ groups.rotate start, g ∈ groups := fun g => mem_rotate.1
  have hnoted := h.noteConflicts hs registry (groups.rotate start)
  generalize AegisDB.noteConflicts cfg env registry (groups.rotate start) s.db = db at hnoted
  have hroom' : 0 + (groups.rotate start).length * icfg.maxDerived ≤ room := by
    rwa [Nat.zero_add, length_rotate]
  have hrun := h.runNamespaces icfg hsub (s := ⟨{ s with db }, icfg.maxDerived,
    icfg.maxCandidates, false, 0⟩) le_rfl hroom' hnoted
  rwa [Nat.zero_add, length_rotate] at hrun

theorem inferenceStep
    (h : ∀ f, s.db.ix.facts = some f → Derives mul cfg env (namespaceGroups (loadFacts env s.db f))
      (idsNeeded env icfg s) P)
    (hmono : ∀ {n m db}, n ≤ m → P n db → P m db) (hs : P 0 s.db) :
    P (idsNeeded env icfg s) (dbInferenceStep mul icfg cfg env s).db := by
  have hkeep : P (idsNeeded env icfg s) s.db := hmono (Nat.zero_le _) hs
  unfold dbInferenceStep
  split
  · rename_i registry f _ hpred hfacts
    have hneed : idsNeeded env icfg s =
        (namespaceGroups (loadFacts env s.db f)).length * icfg.maxDerived := by
      rw [idsNeeded, hfacts, Option.elim_some]
    split_ifs
    · exact hkeep
    · have hloops := (h f hfacts).loops icfg hneed.ge hs registry
      rw [← hneed] at hloops
      dsimp only
      split_ifs
      all_goals exact hloops _
  · exact hkeep

end Derives

/-! ## Deletes -/

section

variable {icfg cfg env} {P : Database F → Prop}
  (hdel : ∀ db id, P db → P (qeDelete cfg env db id none).1)

include hdel

theorem retractStep_induction (hs : P s.db) : P (dbRetractStep icfg cfg env s).db := by
  unfold dbRetractStep
  split_ifs
  · exact hs
  · refine foldlRecOn _ _ (motive := fun (s : Reasoner F) => P s.db) hs fun s hs id _ => ?_
    unfold retractOne
    split
    · exact hs
    · split_ifs
      · exact hs
      · rw [Reasoner.delete_db]
        exact hdel _ _ hs

theorem sweepExpired_induction (hs : P s.db) : P (s.sweepExpired cfg env).db := by
  refine foldlRecOn _ _ (motive := fun (s : Reasoner F) => P s.db) hs fun s hs id _ => ?_
  rw [Reasoner.delete_db]
  exact hdel _ _ hs

end

end AegisDB
