import DataCalculus.Proofs.Soundness
import DataCalculus.Proofs.ValueReading

/-!
# The values of a registry

Values are handed out by the registry, by the reader, by other values and by evaluation. All of these
together give exactly the trees in which every node agrees with the registry, although each of them
looks at one level only or at none. Such a value is read back from its surface form if all its tags
are identifiers.
-/

namespace DataCalculus

set_option autoImplicit false

variable {R : Registry}

/-- Handed out over the registry: made of values, read, taken out of a value, or the result of a term
or a function in an environment and on arguments that were handed out. -/
inductive Value.Obtainable (R : Registry) : Value → Prop where
  | made {ty tag : Name} {args : List Value} {v : Value} (parts : ∀ arg ∈ args, Obtainable R arg)
      (step : R.value ty tag args = .ok v) : Obtainable R v
  | read {j : Json} {v : Value} (step : R.readValue j = .ok v) : Obtainable R v
  | argument {v arg : Value} (whole : Obtainable R v) (part : arg ∈ v.args) : Obtainable R arg
  | evaluated {t : Term} {env : Env} {settings : Settings} {v : Value} (term : t.Built R)
      (values : ∀ x w, env.get? x = some w → Obtainable R w)
      (step : Interpreter.evaluate ⟨R, settings⟩ t env = .ok v) : Obtainable R v
  | applied {f : Func} {env : Env} {args : List Value} {settings : Settings} {v : Value}
      (function : f.Built R) (values : ∀ x w, env.get? x = some w → Obtainable R w)
      (parts : ∀ arg ∈ args, Obtainable R arg)
      (step : Interpreter.apply ⟨R, settings⟩ f env args = .ok v) : Obtainable R v

namespace Interpreter

variable {I : Interpreter} {env : Env} {depth : Nat}

/-- A value that was taken on by a branch went to the branch of its tag. -/
theorem exists_branch_of_evalBranch {branches : List (Name × Func)} {v w : Value}
    (h : I.evalBranch branches v env depth = .ok w) :
    ∃ b ∈ branches, I.applyAt b.2 v.args env depth = .ok w := by
  induction branches with
  | nil => cases h
  | cons b branches ih =>
    obtain ⟨tag, f⟩ := b
    rw [evalBranch] at h
    by_cases ht : v.tag = tag
    · rw [if_pos ht] at h
      exact ⟨(tag, f), List.mem_cons_self, h⟩
    · rw [if_neg ht] at h
      obtain ⟨b, hb, hw⟩ := ih h
      exact ⟨b, List.mem_cons_of_mem _ hb, hw⟩

/-- What holds of the value of each term holds of all values together. -/
theorem forall_mem_values {args : List Term} {vs : List Value} {P : Value → Prop}
    (h : ∀ arg ∈ args, ∀ v, I.eval arg env depth = .ok v → P v)
    (hvs : List.Forall₂ (fun t v => I.eval t env depth = .ok v) args vs) : ∀ v ∈ vs, P v := by
  have hboth := (List.forall₂_and_left _ _).2 ⟨h, hvs⟩
  exact forall_mem_of_forall₂ (hboth.imp fun arg v h => h.1 v h.2)

/-- Evaluation makes valid values of valid values, whatever the term and whatever the types of the
values that it gets to see. -/
theorem eval_valid {settings : Settings} (hR : R.Reachable) :
    (∀ (t : Term) (env : Env) (depth : Nat) (v : Value), env.Valid R →
      eval ⟨R, settings⟩ t env depth = .ok v → v.Valid R) ∧
    ∀ (f : Func) (args : List Value) (env : Env) (depth : Nat) (v : Value),
      (∀ arg ∈ args, arg.Valid R) → env.Valid R →
      applyAt ⟨R, settings⟩ f args env depth = .ok v → v.Valid R := by
  refine Term.induct ?free ?construct ?func ?call ?caseOf ?mk
  case free =>
    intro name ty env depth v henv h
    obtain ⟨_, _, hread⟩ := Fault.bind_eq_ok.1 h
    exact henv name v (Env.read_eq_ok.1 hread).1
  case construct =>
    intro ty tag args deps ih env depth v henv h
    obtain ⟨vs, hvs, hv⟩ := eval_construct_eq_ok h
    refine Value.valid_of_value hR hv (forall_mem_values ?_ hvs)
    intro arg ha w hw
    exact ih arg ha env (depth + 1) w henv hw
  case func =>
    intro f ih env depth v henv h
    obtain ⟨_, _, happly⟩ := Fault.bind_eq_ok.1 h
    exact ih [] env depth v (fun arg ha => absurd ha List.not_mem_nil) henv happly
  case call =>
    intro f args deps ihf iha env depth v henv h
    simp only [eval, Fault.bind_eq_ok, evalAll_eq_ok] at h
    obtain ⟨_, _, vs, hvs, happly⟩ := h
    refine ihf vs env depth v (forall_mem_values ?_ hvs) henv happly
    intro arg ha w hw
    exact iha arg ha env (depth + 1) w henv hw
  case caseOf =>
    intro ty scrutinee branches deps iht ihb env depth v henv h
    simp only [eval, Fault.bind_eq_ok] at h
    obtain ⟨_, _, w, hw, hbranch⟩ := h
    obtain ⟨b, hb, happly⟩ := exists_branch_of_evalBranch hbranch
    obtain ⟨_, _, hparts⟩ := iht env (depth + 1) w henv hw
    exact ihb b hb _ env depth v hparts henv happly
  case mk =>
    intro params body deps ih args env depth v hargs henv h
    rw [applyAt] at h
    by_cases hl : args.length = params.length
    · rw [if_neg (not_not_intro hl)] at h
      exact ih _ (depth + 1) v (henv.extend _ hargs) h
    · rw [if_pos hl] at h
      cases h

end Interpreter

namespace Value

variable {v : Value}

theorem Obtainable.valid (hR : R.Reachable) (h : v.Obtainable R) : v.Valid R := by
  induction h with
  | made _ step ih => exact valid_of_value hR step ih
  | read step => exact (Registry.readsAs_of_readValue hR _ _ step).valid
  | argument _ part ih =>
    obtain ⟨_, _, hparts⟩ := ih
    exact hparts _ part
  | evaluated _ _ step ih =>
    obtain ⟨_, _, heval⟩ := Fault.bind_eq_ok.1 step
    exact (Interpreter.eval_valid hR).1 _ _ _ _ ih heval
  | applied _ _ _ step ihenv ihargs =>
    exact (Interpreter.eval_valid hR).2 _ _ _ _ _ ihargs ihenv step

theorem Built.obtainable (h : v.Built R) : v.Obtainable R := by
  induction h with
  | mk _ step ih => exact .made ih step

theorem allTags_mk {p : Name → Prop} {ty tag : Name} {args : List Value} :
    AllTags p (.mk ty tag args) ↔ p tag ∧ ∀ arg ∈ args, AllTags p arg := by
  constructor
  · intro h
    obtain ⟨here, below⟩ := h
    exact ⟨here, below⟩
  · intro h
    exact .mk h.1 h.2

/-- The tags of a valid value are those of the constructors that its term is made of. -/
theorem Valid.allTags_iff {p : Name → Prop} (h : v.Valid R) :
    v.AllTags p ↔ ∀ c ∈ (Term.constant v).constructors, p c.2 := by
  induction h with
  | @mk ty tag args decl _ _ _ ih =>
    rw [allTags_mk, Term.constant, Term.constructors_construct, List.forall_mem_cons,
      Term.constants_eq_map, List.flatMap_map]
    refine and_congr_right fun _ => ?_
    rw [List.forall_mem_flatMap]
    exact forall₂_congr ih

theorem Valid.allTags_isIdentifier (hR : R.Reachable) (h : v.Valid R) (hcheck : R.check = .ok ()) :
    v.AllTags fun tag => tag.isIdentifier = true := by
  induction h with
  | mk hd hs _ ih => exact .mk ((Registry.check_eq_ok hR).1 hcheck _ _ _ _ hd hs).1 ih

end Value

theorem Registry.readValues_toJsons {args : List Value}
    (h : ∀ arg ∈ args, R.readValue arg.toJson = readBack (Term.constant arg).constructors arg) :
    R.readValues (Value.toJsons args) =
      readBack (args.flatMap fun arg => (Term.constant arg).constructors) args := by
  induction args with
  | nil => rfl
  | cons arg args ih =>
    obtain ⟨harg, hargs⟩ := List.forall_mem_cons.1 h
    rw [Value.toJsons, readValues, List.flatMap_cons, harg, ih hargs]
    exact readBack_bind (readBack_bind_ok rfl)

/-- A valid value is read back, or the reader stops at the first of its constructors whose tag is no
identifier. -/
theorem Registry.readValue_toJson (hR : R.Reachable) {v : Value} (h : v.Valid R) :
    R.readValue v.toJson = readBack (Term.constant v).constructors v := by
  induction h with
  | @mk ty tag args decl hd hs parts ih =>
    have hvalue := (Value.Valid.mk hd hs parts).value_eq hR
    have hhead := Surface.typeAndTag?_spelled (hR.name_eq hd).2 tag
    rw [Value.toJson, readValue, Term.constant, Term.constructors_construct, readBack,
      Surface.Head.spelling, hhead, Term.constants_eq_map, List.flatMap_map]
    by_cases ht : tag.isIdentifier = true
    · rw [if_pos ht, if_pos ht]
      change R.readValues (Value.toJsons args) >>= R.value ty tag = _
      rw [readValues_toJsons ih]
      exact readBack_bind_ok hvalue
    · rw [if_neg ht, if_neg ht]

/-- The values that can be had over a registry are the valid ones, and the registry alone makes all
of them. Each is read back from its surface form exactly if all its tags are identifiers, as over a
checked registry they are, and otherwise its form is not recognised. -/
theorem obtainable_values_are_valid_and_read_back (hR : R.Reachable) (v : Value) :
    (v.Obtainable R ↔ v.Valid R) ∧ (v.Obtainable R ↔ v.Built R) ∧
    (v.Obtainable R →
      (R.readValue v.toJson = .ok v ↔ v.AllTags fun tag => tag.isIdentifier = true) ∧
      (R.check = .ok () → v.AllTags fun tag => tag.isIdentifier = true) ∧
      ((¬ v.AllTags fun tag => tag.isIdentifier = true) →
        ∃ ty tag : Name, tag.isIdentifier = false ∧
          R.readValue v.toJson = .error (.unrecognized (.str (ty ++ "." ++ tag))))) := by
  have hbuilt : v.Obtainable R → v.Built R := fun h => (h.valid hR).built hR
  refine ⟨⟨fun h => h.valid hR, fun h => (h.built hR).obtainable⟩, ⟨hbuilt, fun h => h.obtainable⟩, ?_⟩
  intro h
  have hvalid := h.valid hR
  have hread := Registry.readValue_toJson hR hvalid
  have hodd : (¬ v.AllTags fun tag => tag.isIdentifier = true) →
      ∃ ty tag : Name, tag.isIdentifier = false ∧
        R.readValue v.toJson = .error (.unrecognized (.str (ty ++ "." ++ tag))) := by
    intro hno
    rw [hvalid.allTags_iff] at hno
    obtain ⟨before, ty, tag, after, he, hbefore, ht⟩ := exists_first_odd hno
    refine ⟨ty, tag, ht, ?_⟩
    rw [hread, he, readBack_eq_error hbefore ht]
    rfl
  refine ⟨⟨?_, ?_⟩, hvalid.allTags_isIdentifier hR, hodd⟩
  · intro hok
    by_contra hno
    obtain ⟨_, _, _, herror⟩ := hodd hno
    rw [hok] at herror
    cases herror
  · intro htags
    rw [hread]
    exact readBack_eq_ok (hvalid.allTags_iff.1 htags) v

/-- The value of a term, which is read back, and a value with a point in its tag, which is not. -/
theorem zero_is_read_back_and_point_is_unrecognized :
    Registry.naturals.readValue (Value.mk "Nat" "zero" []).toJson = .ok (.mk "Nat" "zero" []) ∧
    ∃ ty tag : Name, tag.isIdentifier = false ∧
      Registry.pointed.readValue (Value.mk "Unit" "a.b" []).toJson =
        .error (.unrecognized (.str (ty ++ "." ++ tag))) := by
  refine ⟨?_, ?_⟩
  · have hvalues : ∀ x v, Env.one.get? x = some v → v.Obtainable .naturals := fun x v hv =>
      (Env.one_built x v hv).obtainable
    have heval : Interpreter.evaluate ⟨.naturals, {}⟩ .predecessor .one =
        .ok (.mk "Nat" "zero" []) := rfl
    have hzero : (Value.mk "Nat" "zero" []).Obtainable .naturals :=
      .evaluated Term.predecessor_built hvalues heval
    have hback := (obtainable_values_are_valid_and_read_back Registry.naturals_reachable _).2.2 hzero
    exact hback.1.2 (hback.2.1 rfl)
  · have hpointed : Registry.ofDecls [("Unit", [("a.b", [])])] = .ok .pointed := rfl
    have hvalue : Registry.pointed.value "Unit" "a.b" [] = .ok (.mk "Unit" "a.b" []) := rfl
    have hpoint : (Value.mk "Unit" "a.b" []).Obtainable .pointed :=
      .made (fun arg ha => absurd ha List.not_mem_nil) hvalue
    have hback := (obtainable_values_are_valid_and_read_back
      (Registry.reachable_of_ofDecls hpointed) _).2.2 hpoint
    refine hback.2.2 fun htags => ?_
    exact absurd (Value.allTags_mk.1 htags).1 (by decide)

end DataCalculus
