import AegisDB.Index.Facts

/-!
# Facts, the registry and the rules

`predicate_registry.h` declares what a predicate may do, and `inference.h` what a fact is to the
inference pass. A `Firing` is one application of a declared rule; `Fires registry facts c` says that
the rule of `c` is declared and that its premises are id-valued facts. `Firing.route` is the
justification the firing contributes. All of it depends on which facts there are and not on their
order (`Fires.of_subset`), and with distinct record ids a justification determines its firing
(`Fires.route_eq`).
-/

namespace AegisDB

/-! ## The registry -/

/-- One predicate of the registry, as far as inserts and the inference pass look at it. -/
structure PredicateSpec where
  name : CString
  objectIsId : Bool
  /-- `a p b` gives `b p a`. -/
  symmetric : Bool
  /-- `a p b` and `b p c` give `a p c`. -/
  transitive : Bool
  /-- `a p b` gives `b q a`. -/
  inverseOf : Option CString
  singleValued : Bool
  mutexWith : List CString

/-- `predicate_registry_get`; the names of a registry are distinct. -/
def predicateRegistryGet (registry : List PredicateSpec) (p : CString) : Option PredicateSpec :=
  registry.find? fun spec => spec.name = p

/-- `InferFact`: the triple of a record. -/
structure InferFact where
  recordId : UInt64
  triple : FactTriple
  /-- The derivation depth of the record, zero when asserted. -/
  depth : UInt16
  confidence : F32
  deriving DecidableEq

/-- `InferRoute`: a route with the confidence it gives. -/
structure InferRoute extends DerivRoute where
  confidence : F32

namespace InferRoute

/-- What `route_cmp` compares by. -/
def key (rt : InferRoute) : List ℕ ×ₗ ℕ := rt.toDerivRoute.key

end InferRoute

structure Firing where
  rule : DerivRule
  triple : FactTriple
  premise : InferFact
  second : Option InferFact

/-- `route_of`: the route of two premises without its depth, and the deepest premise. The product of
floats is a parameter. -/
def routeOf (mul : F32 → F32 → F32) (floor : F32) (rule : DerivRule) (a : InferFact)
    (b : Option InferFact) : InferRoute × UInt16 :=
  let conf := match b with
    | none => a.confidence
    | some b => mul a.confidence b.confidence
  let deepest := match b with
    | none => a.depth
    | some b => if a.depth < b.depth then b.depth else a.depth
  ⟨{ rule, depth := 0
     premises := a.recordId :: b.toList.map InferFact.recordId
     confidence := if conf.Lt floor then floor else conf }, deepest⟩

namespace Firing

variable (mul : F32 → F32 → F32) (floor : F32) (c : Firing)

def deepest : UInt16 :=
  match c.second with
  | none => c.premise.depth
  | some b => if c.premise.depth < b.depth then b.depth else c.premise.depth

/-- The route as it is recorded: one deeper than the deepest premise. -/
def route : InferRoute :=
  { (routeOf mul floor c.rule c.premise c.second).1 with depth := c.deepest + 1 }

end Firing

/-- The firings of the declared rules on facts whose object is an id. -/
inductive Fires (registry : List PredicateSpec) (facts : List InferFact) : Firing → Prop
  | symmetric {f : InferFact} {o : UInt64} {spec : PredicateSpec} (hf : f ∈ facts)
      (ho : f.triple.object = .id o)
      (hspec : predicateRegistryGet registry f.triple.predicate = some spec)
      (hrule : spec.symmetric = true) :
      Fires registry facts
        ⟨.symmetric, ⟨o, f.triple.predicate, .id f.triple.subject⟩, f, none⟩
  | inverse {f : InferFact} {o : UInt64} {spec : PredicateSpec} {q : CString} (hf : f ∈ facts)
      (ho : f.triple.object = .id o)
      (hspec : predicateRegistryGet registry f.triple.predicate = some spec)
      (hrule : spec.inverseOf = some q) :
      Fires registry facts ⟨.inverse, ⟨o, q, .id f.triple.subject⟩, f, none⟩
  | transitive {f g : InferFact} {o d : UInt64} {spec : PredicateSpec} (hf : f ∈ facts)
      (ho : f.triple.object = .id o)
      (hspec : predicateRegistryGet registry f.triple.predicate = some spec)
      (hrule : spec.transitive = true) (hg : g ∈ facts) (hsubject : g.triple.subject = o)
      (hpredicate : g.triple.predicate = f.triple.predicate) (hobject : g.triple.object = .id d) :
      Fires registry facts
        ⟨.transitive, ⟨f.triple.subject, f.triple.predicate, .id d⟩, f, some g⟩

namespace Fires

variable {registry : List PredicateSpec} {facts facts' : List InferFact} {c c' : Firing}

section

variable (h : Fires registry facts c)

include h

theorem premise_mem : c.premise ∈ facts := by
  cases h <;> assumption

theorem second_mem {g : InferFact} (hg : c.second = some g) : g ∈ facts := by
  cases h with
  | symmetric | inverse => cases hg
  | transitive _ _ _ _ hmem => cases hg; exact hmem

theorem deepest_lt {d : UInt16} (hd : ∀ f ∈ facts, f.depth < d) : c.deepest < d := by
  unfold Firing.deepest
  split
  · exact hd _ h.premise_mem
  · rename_i g hg
    split_ifs
    · exact hd g (h.second_mem hg)
    · exact hd _ h.premise_mem

theorem of_subset (hsub : ∀ f ∈ facts, f ∈ facts') : Fires registry facts' c := by
  cases h with
  | symmetric hf ho hspec hrule => exact .symmetric (hsub _ hf) ho hspec hrule
  | inverse hf ho hspec hrule => exact .inverse (hsub _ hf) ho hspec hrule
  | transitive hf ho hspec hrule hg hsubject hpredicate hobject =>
    exact .transitive (hsub _ hf) ho hspec hrule (hsub _ hg) hsubject hpredicate hobject

end

theorem congr (hmem : ∀ f, f ∈ facts ↔ f ∈ facts') :
    Fires registry facts c ↔ Fires registry facts' c :=
  ⟨fun h => h.of_subset fun f => (hmem f).1, fun h => h.of_subset fun f => (hmem f).2⟩

/-- With distinct record ids the premises and the rule of a route say which facts were used. -/
theorem route_eq {mul : F32 → F32 → F32} {floor : F32}
    (hids : (facts.map InferFact.recordId).Nodup) (h : Fires registry facts c)
    (h' : Fires registry facts c') (hkey : (c.route mul floor).key = (c'.route mul floor).key) :
    c.route mul floor = c'.route mul floor := by
  obtain ⟨hpremises, hrule⟩ := DerivRoute.key_eq_iff.1 hkey
  obtain ⟨hfst, hsnd⟩ := List.cons.inj hpremises
  have hpremise : c.premise = c'.premise :=
    List.inj_on_of_nodup_map hids h.premise_mem h'.premise_mem hfst
  have hsecond : c.second = c'.second := by
    cases hg : c.second with
    | none => cases hg' : c'.second with
      | none => rfl
      | some g' => rw [hg, hg'] at hsnd; cases hsnd
    | some g => cases hg' : c'.second with
      | none => rw [hg, hg'] at hsnd; cases hsnd
      | some g' =>
        rw [hg, hg'] at hsnd
        exact congrArg some (List.inj_on_of_nodup_map hids (h.second_mem hg) (h'.second_mem hg')
          (List.cons.inj hsnd).1)
  have hrule : c.rule = c'.rule := hrule
  simp only [Firing.route, Firing.deepest, hpremise, hsecond, hrule]

end Fires

end AegisDB
