import DataCalculus.Proofs.RegistryRuns
import DataCalculus.Proofs.ValueReading

/-!
# Registries that grow

A registry may be set up further when terms and values were already built over it. As long as no
constructor is replaced, a term that was built before evaluates as it did, to the same value or with
the same fault and in whatever environment, and trees are read as the same values. A case analysis has
no branch for a constructor that came later, so that trees are read as the same terms only while the
old types get no new constructors.
-/

namespace DataCalculus

set_option autoImplicit false

namespace Registry

variable {R S : Registry} {calls : List Call} {c : Call} {ty tag : Name} {signature : List Name}

/-- The call gives no new arguments to a constructor that is there. -/
def AddsNew (R : Registry) : Call → Prop
  | .declare _ => True
  | .addConstructor ty tag _ => R.signature? ty tag = none

/-- No call, when its turn comes, gives new arguments to a constructor that is there. -/
def NeverReplaces : Registry → List Call → Prop
  | _, [] => True
  | R, c :: calls => R.AddsNew c ∧ NeverReplaces (R.after c) calls

/-- No call adds a constructor to one of the declared types. -/
def LeavesTypes (R : Registry) (calls : List Call) : Prop :=
  ∀ ty tag args, .addConstructor ty tag args ∈ calls → R.contains ty = false

/-- All constructors are there with their arguments, and perhaps others. -/
def Extends (R S : Registry) : Prop :=
  ∀ ty tag signature, R.signature? ty tag = some signature → S.signature? ty tag = some signature

/-- All declarations are there as they were, and perhaps others. -/
def Keeps (R S : Registry) : Prop :=
  ∀ ty decl, R.types.get? ty = some decl → S.types.get? ty = some decl

/-- Constructors that a call does not replace stay. -/
theorem AddsNew.extends (h : R.AddsNew c) : R.Extends (R.after c) := by
  intro ty tag signature hs
  rw [signature?_after]
  refine .inr ⟨hs, ?_⟩
  intro args hc
  rw [hc, AddsNew, hs] at h
  cases h

theorem NeverReplaces.extends (h : R.NeverReplaces calls) : R.Extends (R.run calls) := by
  induction calls generalizing R with
  | nil => exact fun _ _ _ hs => hs
  | cons c calls ih =>
    obtain ⟨hnew, hrest⟩ := h
    intro ty tag signature hs
    exact ih hrest ty tag signature (hnew.extends ty tag signature hs)

/-- A call that adds nothing to a declared type leaves its declaration as it is. -/
theorem get?_after {decl : TypeDecl} (hd : R.types.get? ty = some decl)
    (hc : ∀ tag args, c ≠ .addConstructor ty tag args) :
    (R.after c).types.get? ty = some decl := by
  rcases R.after_cases c with hok | hsame
  · cases c with
    | declare name =>
      obtain ⟨_, hnone, he⟩ := declare_eq_ok.1 hok
      have hty : ty ≠ name := by
        intro hty
        rw [hty, hnone] at hd
        cases hd
      rw [he, Table.get?_insert, if_neg hty, hd]
    | addConstructor other tag args =>
      obtain ⟨_, _, he⟩ := addConstructor_eq_ok.1 hok
      have hty : ty ≠ other := fun hty => hc tag args (by rw [hty])
      rw [he, Table.get?_insert, if_neg hty, hd]
  · rw [hsame, hd]

theorem LeavesTypes.keeps (h : R.LeavesTypes calls) : R.Keeps (R.run calls) := by
  induction calls using List.reverseRecOn with
  | nil => exact fun _ _ hd => hd
  | append_singleton calls c ih =>
    intro ty decl hd
    have hinit : R.LeavesTypes calls := fun ty tag args hmem =>
      h ty tag args (List.mem_append_left _ hmem)
    rw [run_concat]
    refine get?_after (ih hinit ty decl hd) ?_
    intro tag args hc
    have hundeclared := h ty tag args (by simp [hc])
    rw [contains_iff.2 ⟨decl, hd⟩] at hundeclared
    cases hundeclared

/-- A declared constructor takes the same arguments and refuses others in the same way. -/
theorem Extends.value_eq (hR : R.Reachable) (hS : S.Reachable) (h : R.Extends S)
    (hs : R.signature? ty tag = some signature) (args : List Value) :
    S.value ty tag args = R.value ty tag args := by
  obtain ⟨decl, hd, hsignature⟩ := signature?_eq_some.1 hs
  obtain ⟨decl', hd', hsignature'⟩ := signature?_eq_some.1 (h ty tag signature hs)
  have hname : decl'.name = decl.name := (hS.name_eq hd').1.trans (hR.name_eq hd).1.symm
  rw [value, value, get_eq_ok.2 hd, get_eq_ok.2 hd']
  change decl'.signature tag >>= _ = decl.signature tag >>= _
  rw [TypeDecl.signature_eq_ok.2 hsignature, TypeDecl.signature_eq_ok.2 hsignature', hname]

theorem Extends.value_ok (hR : R.Reachable) (hS : S.Reachable) (h : R.Extends S)
    {args : List Value} {v : Value} (hv : R.value ty tag args = .ok v) :
    S.value ty tag args = .ok v := by
  obtain ⟨decl, hd, hs, _⟩ := value_eq_ok.1 hv
  rw [h.value_eq hR hS (signature?_eq_some.2 ⟨decl, hd, hs⟩), hv]

/-- What is read as a value stays readable as this value. -/
theorem Extends.readValue (hR : R.Reachable) (hS : S.Reachable) (h : R.Extends S) :
    ∀ j v, R.readValue j = .ok v → S.readValue j = .ok v := by
  refine readValue_induct ?_
  intro head ty tag items args v hs hargs hv
  exact readValue_eq_ok.2 ⟨head, ty, tag, items, args, rfl, hs, hargs, h.value_ok hR hS hv⟩

/-- What is read as a term stays readable as this term: the builders look at declarations that have
not changed. -/
theorem Keeps.read (hR : R.Reachable) (hS : S.Reachable) (h : R.Keeps S) :
    (∀ j t, R.readTerm j = .ok t → S.readTerm j = .ok t) ∧
      ∀ j f, R.readLiteral j = .ok f → S.readLiteral j = .ok f := by
  refine read_induct ?free ?construct ?func ?call ?caseOf ?mk
  case free =>
    intro s name ty t hs hbuild
    obtain ⟨hi, decl, hd, ht⟩ := free_eq_ok.1 hbuild
    rw [readTerm, hs]
    exact free_eq_ok.2 ⟨hi, decl, h ty decl hd, ht⟩
  case construct =>
    intro head ty tag items args t hhead hargs hbuild
    obtain ⟨decl, signature, deps, hd, hs⟩ := construct_eq_ok.1 hbuild
    have hbuild' : S.construct ty tag args = .ok t :=
      construct_eq_ok.2 ⟨decl, signature, deps, h ty decl hd, hs⟩
    exact (readForm_construct_eq_ok hhead).2 ⟨args, hargs, hbuild'⟩
  case func =>
    intro j f hf
    obtain ⟨params, body, _, _, rfl, _⟩ := readLiteral_eq_ok.1 hf
    rw [readTerm_literal, hf]
    rfl
  case call =>
    intro head ty decl literal f items args t hhead hd hf hargs hbuild hty
    exact (readForm_call_eq_ok hhead).2
      ⟨literal, items, decl, f, args, rfl, h ty decl hd, hf, hargs, hbuild, hty⟩
  case caseOf =>
    intro head ty scrutinee s fields branches t hhead hs hbranches hbuild
    obtain ⟨result, decl, deps, hr, hd, hcovered⟩ := caseOf_eq_ok_iff.1 hbuild
    have hbuild' : S.caseOf ty s branches = .ok t :=
      caseOf_eq_ok_iff.2 ⟨result, decl, deps, h ty result hr, h s.ty decl hd, hcovered⟩
    exact (readForm_caseOf_eq_ok hhead).2 ⟨scrutinee, fields, s, branches, rfl, hs, hbranches, hbuild'⟩
  case mk =>
    intro params body ps b f hparams hb hbuild
    have hparams' : List.Forall₂ (fun p q => S.readParam p = .ok q) params ps := by
      refine hparams.imp fun p q hp => ?_
      obtain ⟨hspelled, hdeclared⟩ := (readParam_eq_ok hR).1 hp
      obtain ⟨decl, hd⟩ := contains_iff.1 hdeclared
      exact (readParam_eq_ok hS).2 ⟨hspelled, contains_iff.2 ⟨decl, h q.ty decl hd⟩⟩
    exact readLiteral_eq_ok.2 ⟨params, body, ps, b, rfl, hparams', hb, hbuild⟩

end Registry

namespace Interpreter

variable {R S : Registry} {settings : Settings}

/-- A built term asks the registry for its own constructors only. -/
theorem eval_extends (hR : R.Reachable) (hS : S.Reachable) (h : R.Extends S) :
    (∀ t : Term, t.Built R → ∀ env depth,
      eval ⟨S, settings⟩ t env depth = eval ⟨R, settings⟩ t env depth) ∧
    ∀ f : Func, f.Built R → ∀ args env depth,
      applyAt ⟨S, settings⟩ f args env depth = applyAt ⟨R, settings⟩ f args env depth := by
  refine Term.induct ?free ?construct ?func ?call ?caseOf ?mk
  case free =>
    intro name ty _ env depth
    rfl
  case construct =>
    intro ty tag args deps ih ht env depth
    obtain ⟨⟨decl, signature, hd, hs⟩, hargs, _⟩ := ht.checked hR
    have hall : evalAll ⟨S, settings⟩ args env (depth + 1) =
        evalAll ⟨R, settings⟩ args env (depth + 1) :=
      evalAll_congr (List.forall₂_same.2 fun arg ha => ih arg ha (hargs arg ha) env (depth + 1))
    have hvalue := h.value_eq hR hS (Registry.signature?_eq_some.2 ⟨decl, hd, hs⟩)
    rw [eval, eval, hall]
    simp only [hvalue]
    rfl
  case func =>
    intro f ih ht env depth
    rw [eval, eval, ih (ht.checked hR)]
    rfl
  case call =>
    intro f args deps ihf iha ht env depth
    obtain ⟨hf, hargs, _⟩ := ht.checked hR
    have hall : evalAll ⟨S, settings⟩ args env (depth + 1) =
        evalAll ⟨R, settings⟩ args env (depth + 1) :=
      evalAll_congr (List.forall₂_same.2 fun arg ha => iha arg ha (hargs arg ha) env (depth + 1))
    simp only [eval, hall, ihf hf]
    rfl
  case caseOf =>
    intro ty scrutinee branches deps iht ihb ht env depth
    obtain ⟨hs, hbranches, _⟩ := ht.checked hR
    have hbranch : ∀ v, evalBranch ⟨S, settings⟩ branches v env depth =
        evalBranch ⟨R, settings⟩ branches v env depth := by
      intro v
      refine evalBranch_congr (List.forall₂_same.2 fun b hb => ⟨rfl, fun _ => ?_⟩)
      exact ihb b hb (hbranches b hb) v.args env depth
    simp only [eval, iht hs, hbranch]
    rfl
  case mk =>
    intro params body deps ih hf args env depth
    simp only [applyAt, ih hf.checked.body]

/-- Growth that replaces no constructor leaves evaluation of the terms that were built before as it was,
faults and limits included, and keeps every value readable. Growth that leaves the old types alone
keeps every term readable as well. -/
theorem growth_keeps_evaluation_and_reading (hR : R.Reachable) {calls : List Registry.Call}
    (h : R.NeverReplaces calls) :
    (∀ t : Term, t.Built R → ∀ (env : Env) (settings : Settings),
      evaluate ⟨R.run calls, settings⟩ t env = evaluate ⟨R, settings⟩ t env) ∧
    (∀ j v, R.readValue j = .ok v → (R.run calls).readValue j = .ok v) ∧
    (R.LeavesTypes calls → ∀ j t, R.readTerm j = .ok t → (R.run calls).readTerm j = .ok t) := by
  have hS := hR.run calls
  refine ⟨?_, h.extends.readValue hR hS, fun hold => (hold.keeps.read hR hS).1⟩
  intro t ht env settings
  rw [evaluate, evaluate, (eval_extends hR hS h.extends).1 t ht]

/-- Calls that add another type. -/
def anotherType : List Registry.Call := [.declare "Bool", .addConstructor "Bool" "true" ["Nat"]]

/-- Calls that add another type and another number, and a call that fails. -/
def anotherNumber : List Registry.Call :=
  anotherType ++ [.declare "a b", .addConstructor "Nat" "infinite" []]

/-- The predecessor is evaluated with a number that it has no branch for, and is read again as long as
there is no such number. -/
theorem predecessor_after_growth :
    evaluate ⟨Registry.naturals.run anotherNumber, {}⟩ .predecessor .one =
      .ok (.mk "Nat" "zero" []) ∧
    evaluate ⟨Registry.naturals.run anotherNumber, {}⟩ .predecessor
      (.single "n" (.mk "Nat" "infinite" [])) = .error (.missingBranch "Nat" "infinite") ∧
    (Registry.naturals.run anotherNumber).readValue (.arr [.str "Nat.zero"]) =
      .ok (.mk "Nat" "zero" []) ∧
    (Registry.naturals.run anotherType).readTerm Term.predecessor.toJson = .ok .predecessor := by
  have hnumber : Registry.naturals.NeverReplaces anotherNumber := ⟨trivial, rfl, trivial, rfl, trivial⟩
  have htype : Registry.naturals.NeverReplaces anotherType := ⟨trivial, rfl, trivial⟩
  have hleaves : Registry.naturals.LeavesTypes anotherType := by
    intro ty tag args hmem
    obtain ⟨rfl, _⟩ : ty = "Bool" ∧ tag = "true" ∧ args = ["Nat"] := by
      simpa [anotherType] using hmem
    decide
  have hone : evaluate ⟨.naturals, {}⟩ .predecessor .one = .ok (.mk "Nat" "zero" []) := rfl
  have hinfinite : evaluate ⟨.naturals, {}⟩ .predecessor (.single "n" (.mk "Nat" "infinite" [])) =
      .error (.missingBranch "Nat" "infinite") := rfl
  have hzero : Registry.naturals.readValue (.arr [.str "Nat.zero"]) = .ok (.mk "Nat" "zero" []) := rfl
  have hread : Registry.naturals.readTerm Term.predecessor.toJson = .ok .predecessor := by
    rw [(Registry.read_toJson Registry.naturals_reachable).1 _ Term.predecessor_built]
    exact readBack_eq_ok (by decide) _
  obtain ⟨heval, hvalue, _⟩ :=
    growth_keeps_evaluation_and_reading Registry.naturals_reachable hnumber
  obtain ⟨_, _, hterm⟩ := growth_keeps_evaluation_and_reading Registry.naturals_reachable htype
  refine ⟨?_, ?_, ?_, ?_⟩
  · rw [heval _ Term.predecessor_built, hone]
  · rw [heval _ Term.predecessor_built, hinfinite]
  · exact hvalue _ _ hzero
  · exact hterm hleaves _ _ hread

example : ((Registry.naturals.run anotherNumber).readTerm Term.predecessor.toJson).isOk = false := by
  decide +kernel

end Interpreter

end DataCalculus
