import DataCalculus.Proofs.Building
import DataCalculus.Proofs.Parts

/-!
# Inside built terms

A term that the builders of a registry made was checked at every node, and its parts were made by
the builders too. `Term.Checked` says what holds at each kind of node; a constant, which is not
checked, is a constructor node of the same kind, except that its tag need not be an identifier.
-/

namespace DataCalculus

set_option autoImplicit false

variable {R : Registry}

/-- What the builders checked of a term, and which of its parts they made. -/
def Term.Checked (R : Registry) : Term → Prop
  | .free name ty => name.isIdentifier = true ∧ ∃ decl, R.types.get? ty = some decl
  | .construct ty tag args deps =>
    (∃ decl signature, R.types.get? ty = some decl ∧
      decl.constructors.get? tag = some signature) ∧
    (∀ arg ∈ args, Term.Built R arg) ∧ Deps.union (args.map Term.deps) = .ok deps
  | .func f => Func.Built R f
  | .call f args deps =>
    Func.Built R f ∧ (∀ arg ∈ args, Term.Built R arg) ∧ args.map Term.ty = f.signature ∧
    Deps.union (f.deps :: args.map Term.deps) = .ok deps
  | .caseOf ty scrutinee branches deps =>
    Term.Built R scrutinee ∧ (∀ b ∈ branches, Func.Built R b.2) ∧ Entries.Ordered branches ∧
    (∃ result, R.types.get? ty = some result) ∧
    (∃ decl, R.types.get? scrutinee.ty = some decl ∧ decl.CoveredBy ty branches) ∧
    Deps.union (scrutinee.deps :: branches.map fun b => b.2.deps) = .ok deps

/-- What the builders checked of a function. -/
structure Func.Checked (R : Registry) (f : Func) : Prop where
  declared : ∀ p ∈ f.params, p.name.isIdentifier = true ∧ ∃ decl, R.types.get? p.ty = some decl
  body : Term.Built R f.body
  distinct : (f.params.map Param.name).Nodup
  used : ∀ p ∈ f.params, ∀ T, f.body.deps.get? p.name = some T → T = p.ty
  deps_eq : f.deps = f.body.deps.without (f.params.map Param.name)

namespace Term

theorem constants_eq_map (vs : List Value) : constants vs = vs.map constant := by
  induction vs with
  | nil => rfl
  | cons v vs ih => rw [constants, ih, List.map_cons]

@[simp] theorem ty_constant (v : Value) : (constant v).ty = v.ty := by
  cases v
  rfl

@[simp] theorem deps_constant (v : Value) : (constant v).deps = .empty := by
  cases v
  rfl

theorem union_deps_constants (vs : List Value) :
    Deps.union ((constants vs).map deps) = .ok .empty := by
  rw [constants_eq_map, List.map_map, Deps.union_map_eq_ok]
  simp

theorem checked_constant (hR : R.Reachable) {v : Value} (hv : v.Built R) :
    (constant v).Checked R := by
  obtain ⟨hd, hs, ha⟩ := hv.valid hR
  refine ⟨⟨_, _, hd, hs⟩, ?_, union_deps_constants _⟩
  rw [constants_eq_map]
  intro t ht
  obtain ⟨arg, harg, rfl⟩ := List.mem_map.1 ht
  exact .constant ((ha arg harg).built hR)

theorem Built.checked (hR : R.Reachable) {t : Term} (h : t.Built R) : t.Checked R := by
  cases h with
  | free step =>
    obtain ⟨hi, decl, hd, rfl⟩ := Registry.free_eq_ok.1 step
    rw [(hR.name_eq hd).1]
    exact ⟨hi, decl, hd⟩
  | construct parts step =>
    obtain ⟨decl, signature, deps, hd, hs, _, hu, rfl⟩ := Registry.construct_eq_ok.1 step
    rw [(hR.name_eq hd).1]
    exact ⟨⟨decl, signature, hd, hs⟩, parts, hu⟩
  | constant part => exact checked_constant hR part
  | func part => exact part
  | call function parts step =>
    obtain ⟨hs, deps, hu, rfl⟩ := Func.call_eq_ok.1 step
    exact ⟨function, parts, hs, hu⟩
  | caseOf part parts ordered step =>
    obtain ⟨result, decl, deps, hr, hd, hc, hu, rfl⟩ := (Registry.caseOf_eq_ok ordered).1 step
    rw [(hR.name_eq hr).1] at hc ⊢
    exact ⟨part, parts, ordered, ⟨result, hr⟩, ⟨decl, hd, hc⟩, hu⟩

end Term

theorem Func.Built.checked {f : Func} (h : f.Built R) : f.Checked R := by
  obtain ⟨declared, part, step⟩ := h
  obtain ⟨hn, hu, rfl⟩ := Func.build_eq_ok.1 step
  refine ⟨?_, part, hn, hu, rfl⟩
  intro p hp
  obtain ⟨hi, decl, hd, _⟩ := Registry.param_eq_ok.1 (declared p hp)
  exact ⟨hi, decl, hd⟩

theorem Func.Checked.get?_deps {f : Func} (hf : f.Checked R) {x T : Name}
    (hx : x ∉ f.params.map Param.name) (h : f.body.deps.get? x = some T) :
    f.deps.get? x = some T := by
  rw [hf.deps_eq, Table.get?_without, if_neg hx, h]

/-- The type of a built term is declared; a constructor may still take undeclared types. -/
theorem Term.Built.ty_declared (hR : R.Reachable) {t : Term} (h : t.Built R) :
    ∃ decl, R.types.get? t.ty = some decl := by
  refine (Term.induct (P := fun t => t.Built R → ∃ decl, R.types.get? t.ty = some decl)
    (Q := fun f => f.Built R → ∃ decl, R.types.get? f.ty = some decl)
    ?free ?construct ?func ?call ?caseOf ?mk).1 t h
  case free =>
    intro name ty h
    exact (h.checked hR).2
  case construct =>
    intro ty tag args deps _ h
    obtain ⟨⟨decl, _, hd, _⟩, _⟩ := h.checked hR
    exact ⟨decl, hd⟩
  case func =>
    intro f ih h
    exact ih (h.checked hR)
  case call =>
    intro f args deps ih _ h
    exact ih (h.checked hR).1
  case caseOf =>
    intro ty scrutinee branches deps _ _ h
    obtain ⟨_, _, _, hty, _⟩ := h.checked hR
    exact hty
  case mk =>
    intro params body deps ih h
    exact ih h.checked.body

/-- Every part of a built term is built. -/
theorem Term.Built.of_mem_subterms (hR : R.Reachable) {t : Term} (h : t.Built R) {s : Term}
    (hs : s ∈ t.subterms) : s.Built R := by
  refine (Term.induct (P := fun t => t.Built R → s ∈ t.subterms → s.Built R)
    (Q := fun f => f.Built R → s ∈ f.subterms → s.Built R)
    ?free ?construct ?func ?call ?caseOf ?mk).1 t h hs
  case free =>
    intro name ty h hs
    rw [List.mem_singleton.1 hs]
    exact h
  case construct =>
    intro ty tag args deps ih h hs
    rcases mem_subterms_construct.1 hs with rfl | ⟨arg, ha, hs⟩
    · exact h
    · exact ih arg ha ((h.checked hR).2.1 arg ha) hs
  case func =>
    intro f ih h hs
    rcases mem_subterms_func.1 hs with rfl | hs
    · exact h
    · exact ih (h.checked hR) hs
  case call =>
    intro f args deps ihf iha h hs
    obtain ⟨hf, hargs, _⟩ := h.checked hR
    rcases mem_subterms_call.1 hs with rfl | hs | ⟨arg, ha, hs⟩
    · exact h
    · exact ihf hf hs
    · exact iha arg ha (hargs arg ha) hs
  case caseOf =>
    intro ty scrutinee branches deps iht ihb h hs
    obtain ⟨ht, hbranches, _⟩ := h.checked hR
    rcases mem_subterms_caseOf.1 hs with rfl | hs | ⟨b, hb, hs⟩
    · exact h
    · exact iht ht hs
    · exact ihb b hb (hbranches b hb) hs
  case mk =>
    intro params body deps ih h hs
    exact ih h.checked.body hs

theorem Term.Built.of_mem_functions (hR : R.Reachable) {t : Term} (h : t.Built R) {f : Func}
    (hf : f ∈ t.functions) : f.Built R := by
  obtain ⟨s, hs, hf⟩ := List.mem_flatMap.1 hf
  have hc := (h.of_mem_subterms hR hs).checked hR
  cases s with
  | free name ty => cases hf
  | construct ty tag args deps => cases hf
  | func g =>
    obtain rfl := List.mem_singleton.1 hf
    exact hc
  | call g args deps =>
    obtain rfl := List.mem_singleton.1 hf
    exact hc.1
  | caseOf ty scrutinee branches deps =>
    obtain ⟨b, hb, rfl⟩ := List.mem_map.1 hf
    exact hc.2.1 b hb

theorem Registry.Reachable.of_foldlM {α : Type} {step : Registry → α → Except Fault Registry}
    (hstep : ∀ R a S, R.Reachable → step R a = .ok S → S.Reachable) {as : List α} {R S : Registry}
    (hR : R.Reachable) (h : as.foldlM step R = .ok S) : S.Reachable := by
  induction as generalizing R with
  | nil =>
    obtain rfl := Except.ok.inj h
    exact hR
  | cons a as ih =>
    rw [List.foldlM_cons, Fault.bind_eq_ok] at h
    obtain ⟨mid, hmid, hrest⟩ := h
    exact ih (hstep R a mid hR hmid) hrest

/-- Declaring types one after another leads to a reachable registry. -/
theorem Registry.reachable_of_ofDecls {decls : List (Name × List (Name × List Name))}
    (h : ofDecls decls = .ok R) : R.Reachable := by
  refine Reachable.of_foldlM ?_ .empty h
  intro R d S hR hd
  simp only [declareWith, Fault.bind_eq_ok] at hd
  obtain ⟨mid, hmid, hadd⟩ := hd
  exact Reachable.of_foldlM (fun _ _ _ hR step => .addConstructor hR step) (.declare hR hmid) hadd

/-- The natural numbers, as a registry of their own. -/
def Registry.naturals : Registry :=
  ⟨.single "Nat" ⟨"Nat", (Table.single "zero" []).insert "next" ["Nat"]⟩, .single "Nat" ()⟩

theorem Registry.naturals_reachable : naturals.Reachable := by
  have h : ofDecls [("Nat", [("zero", []), ("next", ["Nat"])])] = .ok naturals := rfl
  exact reachable_of_ofDecls h

def Func.predecessorBranches : Entries Func :=
  [("next", .mk [⟨"m", "Nat"⟩] (.free "m" "Nat") .empty),
    ("zero", .mk [] (.construct "Nat" "zero" [] .empty) .empty)]

/-- The predecessor of a variable `n`, and zero for zero. -/
def Term.predecessor : Term :=
  .caseOf "Nat" (.free "n" "Nat") Func.predecessorBranches (.single "n" "Nat")

theorem Term.predecessor_built : predecessor.Built .naturals := by
  have hn : Registry.naturals.free "n" "Nat" = .ok (.free "n" "Nat") := rfl
  have hm : Registry.naturals.free "m" "Nat" = .ok (.free "m" "Nat") := rfl
  have hp : Registry.naturals.param "m" "Nat" = .ok ⟨"m", "Nat"⟩ := rfl
  have hz : Registry.naturals.construct "Nat" "zero" [] = .ok (.construct "Nat" "zero" [] .empty) :=
    rfl
  have hnext : Func.build [⟨"m", "Nat"⟩] (.free "m" "Nat") =
      .ok (.mk [⟨"m", "Nat"⟩] (.free "m" "Nat") .empty) := rfl
  have hzero : Func.build [] (.construct "Nat" "zero" [] .empty) =
      .ok (.mk [] (.construct "Nat" "zero" [] .empty) .empty) := rfl
  have hc : Registry.naturals.caseOf "Nat" (.free "n" "Nat") Func.predecessorBranches =
      .ok predecessor := rfl
  refine .caseOf (.free hn) ?_ (by decide) hc
  intro b hb
  simp only [Func.predecessorBranches, List.mem_cons, List.not_mem_nil, or_false] at hb
  rcases hb with rfl | rfl
  · refine .mk ?_ (.free hm) hnext
    intro p h
    obtain rfl := List.mem_singleton.1 h
    exact hp
  · refine .mk ?_ (.construct (fun arg h => absurd h List.not_mem_nil) hz) hzero
    intro p h
    cases h

/-- The variable `n` with the value one. -/
def Env.one : Env := .single "n" (.mk "Nat" "next" [.mk "Nat" "zero" []])

theorem Env.one_built : ∀ x v, Env.one.get? x = some v → v.Built .naturals := by
  have hz : Registry.naturals.value "Nat" "zero" [] = .ok (.mk "Nat" "zero" []) := rfl
  have hn : Registry.naturals.value "Nat" "next" [.mk "Nat" "zero" []] =
      .ok (.mk "Nat" "next" [.mk "Nat" "zero" []]) := rfl
  intro x v hv
  have hm := Table.get?_eq_some_iff.1 hv
  simp only [Env.one, Table.single, List.mem_singleton, Prod.mk.injEq] at hm
  rw [hm.2]
  refine .mk ?_ hn
  intro arg ha
  rw [List.mem_singleton.1 ha]
  exact .mk (fun arg ha => absurd ha List.not_mem_nil) hz

/-- Binary trees, as a registry of their own. -/
def Registry.trees : Registry :=
  ⟨.single "Tree" ⟨"Tree", (Table.single "leaf" []).insert "node" ["Tree", "Tree"]⟩,
    .single "Tree" ()⟩

theorem Registry.trees_reachable : trees.Reachable := by
  have h : ofDecls [("Tree", [("leaf", []), ("node", ["Tree", "Tree"])])] = .ok trees := rfl
  exact reachable_of_ofDecls h

def Value.leaf : Value := .mk "Tree" "leaf" []

def Value.node (left right : Value) : Value := .mk "Tree" "node" [left, right]

theorem Value.leaf_built : leaf.Built .trees := by
  have h : Registry.trees.value "Tree" "leaf" [] = .ok leaf := rfl
  exact .mk (fun arg ha => absurd ha List.not_mem_nil) h

theorem Value.node_built {left right : Value} (hl : left.Built .trees) (hr : right.Built .trees)
    (hlty : left.ty = "Tree") (hrty : right.ty = "Tree") : (node left right).Built .trees := by
  have hsignature : [left, right].map Value.ty = ["Tree", "Tree"] := by simp [hlty, hrty]
  have h : Registry.trees.value "Tree" "node" [left, right] = .ok (node left right) := by
    refine Registry.value_eq_ok.2 ⟨_, rfl, ?_, rfl⟩
    rw [hsignature]
    rfl
  refine .mk ?_ h
  intro arg ha
  simp only [List.mem_cons, List.not_mem_nil, or_false] at ha
  rcases ha with rfl | rfl
  · exact hl
  · exact hr

end DataCalculus
