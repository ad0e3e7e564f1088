import DataCalculus.Registry.History
import Mathlib.Data.List.Induction

/-!
# What a history leaves behind

A registry keeps its declarations and, apart from them, an index of their names, and listings rely on
the two to agree. They do after every history of calls from the empty registry, failing calls included,
and all that the registry answers is decided by two things: which declarations were accepted, and for
each constructor which arguments it was last added with. Nothing is claimed of registries that were put
together in another way.
-/

namespace DataCalculus.Registry

set_option autoImplicit false

variable {R S : Registry} {calls : List Call} {c : Call} {name ty tag : Name} {args : List Name}

/-- A reachable registry is determined by its names and its signatures. -/
theorem Reachable.ext (hR : R.Reachable) (hS : S.Reachable)
    (hnames : ∀ ty, R.contains ty = true ↔ S.contains ty = true)
    (hsignatures : ∀ ty tag, R.signature? ty tag = S.signature? ty tag) : R = S := by
  have hdecls : ∀ ty decl, R.types.get? ty = some decl → S.types.get? ty = some decl := by
    intro ty decl hd
    obtain ⟨decl', he⟩ := contains_iff.1 ((hnames ty).1 (contains_iff.2 ⟨decl, hd⟩))
    have hname : decl'.name = decl.name := (hS.name_eq he).1.trans (hR.name_eq hd).1.symm
    have hconstructors : decl'.constructors = decl.constructors := by
      refine Table.ext_get? fun tag => ?_
      rw [← signature?_of_get? hd, ← signature?_of_get? he, hsignatures]
    have heq : decl' = decl := by
      cases decl'
      cases decl
      exact congrArg₂ TypeDecl.mk hname hconstructors
    rw [he, heq]
  have htypes : R.types = S.types := by
    refine Table.ext_get? fun ty => ?_
    cases hd : R.types.get? ty with
    | some decl => exact (hdecls ty decl hd).symm
    | none =>
      rw [eq_comm, Option.eq_none_iff_forall_ne_some]
      intro decl he
      obtain ⟨decl', hd'⟩ := contains_iff.1 ((hnames ty).2 (contains_iff.2 ⟨decl, he⟩))
      rw [hd] at hd'
      cases hd'
  have hindex : R.index = S.index := by
    have hunit : ∀ (t : Table Unit) (ty : Name), t.get? ty = some () ↔ ty ∈ t.keys := by
      intro t ty
      rw [Table.mem_keys_iff]
      exact ⟨fun h => ⟨(), h⟩, fun ⟨_, h⟩ => h⟩
    refine Table.ext_get? fun ty => Option.ext fun _ => ?_
    rw [hunit, hunit, hR.mem_index_iff, hS.mem_index_iff, htypes]
  cases R
  cases S
  exact congrArg₂ Registry.mk htypes hindex

section Steps

theorem mem_keys_iff_contains : ty ∈ R.types.keys ↔ R.contains ty = true :=
  Table.mem_keys_iff.trans contains_iff.symm

/-- What a call does to the declared names. -/
theorem contains_after : (R.after c).contains name = true ↔
    R.contains name = true ∨ (c = .declare name ∧ ∃ S, R.call c = .ok S) := by
  cases hc : R.call c with
  | error fault => simp [after_of_error hc]
  | ok S =>
    rw [after_of_ok hc, ← mem_keys_iff_contains, ← mem_keys_iff_contains]
    cases c with
    | declare other =>
      obtain ⟨_, _, rfl⟩ := declare_eq_ok.1 hc
      rw [Table.mem_keys_insert, or_comm]
      simp [eq_comm]
    | addConstructor ty tag args =>
      obtain ⟨decl, hd, rfl⟩ := addConstructor_eq_ok.1 hc
      have hmem : ty ∈ R.types.keys := Table.mem_keys_iff.2 ⟨decl, hd⟩
      rw [Table.mem_keys_insert, or_iff_right_of_imp fun he => he ▸ hmem]
      simp

theorem signature?_declare (h : R.declare name = .ok S) (ty tag : Name) :
    S.signature? ty tag = R.signature? ty tag := by
  obtain ⟨_, hnone, rfl⟩ := declare_eq_ok.1 h
  rw [signature?, signature?, Table.get?_insert]
  by_cases hty : ty = name
  · rw [if_pos hty, hty, hnone]
    rfl
  · rw [if_neg hty]

theorem signature?_addConstructor (h : R.addConstructor ty tag args = .ok S) (other label : Name) :
    S.signature? other label =
      if other = ty ∧ label = tag then some args else R.signature? other label := by
  obtain ⟨decl, hd, rfl⟩ := addConstructor_eq_ok.1 h
  rw [signature?, signature?, Table.get?_insert]
  by_cases hty : other = ty
  · rw [if_pos hty, hty, hd, Option.bind_some, Option.bind_some, TypeDecl.addConstructor,
      Table.get?_insert]
    simp
  · simp [hty]

/-- What a call does to the signatures. -/
theorem signature?_after : (R.after c).signature? ty tag = some args ↔
    (c = .addConstructor ty tag args ∧ ∃ S, R.call c = .ok S) ∨
      (R.signature? ty tag = some args ∧ ∀ args', c ≠ .addConstructor ty tag args') := by
  cases hc : R.call c with
  | error fault =>
    rw [after_of_error hc]
    constructor
    · intro h
      refine .inr ⟨h, ?_⟩
      intro args' he
      -- An addition fails only for want of the type, which then has no signatures.
      rw [he, call, addConstructor_eq_error, contains_of_signature? h] at hc
      cases hc.1
    · intro h
      rcases h with ⟨_, S, hS⟩ | ⟨hold, _⟩
      · cases hS
      · exact hold
  | ok S =>
    rw [after_of_ok hc]
    cases c with
    | declare other => simp [signature?_declare hc]
    | addConstructor other label signature =>
      rw [signature?_addConstructor hc]
      by_cases hsame : ty = other ∧ tag = label
      · simp [hsame, eq_comm]
      · have hother : ∀ args', Call.addConstructor other label signature ≠
            .addConstructor ty tag args' := by
          intro args' he
          cases he
          exact hsame ⟨rfl, rfl⟩
        rw [if_neg hsame]
        constructor
        · intro h
          exact .inr ⟨h, hother⟩
        · intro h
          rcases h with ⟨he, _⟩ | ⟨hold, _⟩
          · exact absurd he (hother args)
          · exact hold

end Steps

/-- Some call of the history declared the type and was accepted. -/
def Declared (calls : List Call) (name : Name) : Prop :=
  ∃ before later S, calls = before ++ .declare name :: later ∧
    (empty.run before).declare name = .ok S

/-- The last addition of the constructor in the history that was accepted gave it these arguments. -/
def LastAdded (calls : List Call) (ty tag : Name) (args : List Name) : Prop :=
  ∃ before later S, calls = before ++ .addConstructor ty tag args :: later ∧
    (empty.run before).addConstructor ty tag args = .ok S ∧
    ∀ args', .addConstructor ty tag args' ∉ later

/-- A call of a history with one more call is that call, or stands in the history before it. -/
theorem split_concat {before later : List Call} {d : Call}
    (h : calls ++ [c] = before ++ d :: later) :
    (before = calls ∧ d = c ∧ later = []) ∨
      ∃ rest, later = rest ++ [c] ∧ calls = before ++ d :: rest := by
  rcases List.eq_nil_or_concat later with rfl | ⟨rest, e, rfl⟩
  · obtain ⟨hbefore, hlast⟩ := List.append_inj' h rfl
    exact .inl ⟨hbefore.symm, (List.singleton_inj.1 hlast).symm, rfl⟩
  · rw [List.concat_eq_append, ← List.cons_append, ← List.append_assoc] at h
    obtain ⟨hcalls, hlast⟩ := List.append_inj' h rfl
    exact .inr ⟨rest, by rw [List.concat_eq_append, List.singleton_inj.1 hlast], hcalls⟩

theorem declared_concat : Declared (calls ++ [c]) name ↔
    Declared calls name ∨ (c = .declare name ∧ ∃ S, (empty.run calls).call c = .ok S) := by
  constructor
  · intro h
    obtain ⟨before, later, S, he, hS⟩ := h
    rcases split_concat he with ⟨rfl, rfl, rfl⟩ | ⟨rest, rfl, rfl⟩
    · exact .inr ⟨rfl, S, hS⟩
    · exact .inl ⟨before, rest, S, rfl, hS⟩
  · intro h
    rcases h with ⟨before, later, S, rfl, hS⟩ | ⟨rfl, S, hS⟩
    · exact ⟨before, later ++ [c], S, by simp, hS⟩
    · exact ⟨calls, [], S, rfl, hS⟩

theorem lastAdded_concat : LastAdded (calls ++ [c]) ty tag args ↔
    (c = .addConstructor ty tag args ∧ ∃ S, (empty.run calls).call c = .ok S) ∨
      (LastAdded calls ty tag args ∧ ∀ args', c ≠ .addConstructor ty tag args') := by
  constructor
  · intro h
    obtain ⟨before, later, S, he, hS, hlast⟩ := h
    rcases split_concat he with ⟨rfl, rfl, rfl⟩ | ⟨rest, rfl, rfl⟩
    · exact .inl ⟨rfl, S, hS⟩
    · refine .inr ⟨⟨before, rest, S, rfl, hS, ?_⟩, ?_⟩
      · intro args' hmem
        exact hlast args' (List.mem_append_left _ hmem)
      · intro args' hc
        exact hlast args' (by simp [hc])
  · intro h
    rcases h with ⟨rfl, S, hS⟩ | ⟨⟨before, later, S, rfl, hS, hlast⟩, hother⟩
    · exact ⟨calls, [], S, rfl, hS, fun _ => List.not_mem_nil⟩
    · refine ⟨before, later ++ [c], S, by simp, hS, fun args' hmem => ?_⟩
      rcases List.mem_append.1 hmem with hmem | hmem
      · exact hlast args' hmem
      · exact hother args' (List.mem_singleton.1 hmem).symm

/-- The declared names are those of the declarations that were accepted. -/
theorem contains_run_iff : (empty.run calls).contains name = true ↔ Declared calls name := by
  induction calls using List.reverseRecOn with
  | nil =>
    refine iff_of_false (by simp [run, contains, empty, Table.contains]) ?_
    intro h
    obtain ⟨before, later, S, he, _⟩ := h
    simp at he
  | append_singleton calls c ih => rw [run_concat, contains_after, declared_concat, ih]

/-- The signature of a constructor is that of its last addition. -/
theorem signature?_run_iff :
    (empty.run calls).signature? ty tag = some args ↔ LastAdded calls ty tag args := by
  induction calls using List.reverseRecOn with
  | nil =>
    refine iff_of_false (by simp [run, signature?, empty]) ?_
    intro h
    obtain ⟨before, later, S, he, _⟩ := h
    simp at he
  | append_singleton calls c ih => rw [run_concat, signature?_after, lastAdded_concat, ih]

/-- The registry answers as a history demands: both indexes agree, each declaration stands under its
own name, and names, listings and signatures are those of the calls that were accepted. -/
structure Records (R : Registry) (calls : List Call) : Prop where
  indexes_agree : R.names = R.types.keys
  own_name : ∀ ty decl, R.types.get? ty = some decl → decl.name = ty ∧ ty.isIdentifier = true
  contains_iff : ∀ ty, R.contains ty = true ↔ Declared calls ty
  get_iff : ∀ ty, (∃ decl, R.get ty = .ok decl) ↔ Declared calls ty
  listed : ∀ decl, decl ∈ R.decls ↔ R.get decl.name = .ok decl
  increasing : (R.decls.map TypeDecl.name).Pairwise (· < ·)
  size_eq : R.size = R.decls.length
  signature_iff : ∀ ty decl, R.get ty = .ok decl → ∀ tag args,
    decl.signature tag = .ok args ↔ LastAdded calls ty tag args
  tags_increasing : ∀ ty decl, R.get ty = .ok decl → decl.constructors.keys.Pairwise (· < ·)

theorem Reachable.map_name_decls (h : R.Reachable) : R.decls.map TypeDecl.name = R.names := by
  rw [h.decls_eq, h.names_eq, Table.values, Table.keys, Entries.keys, List.map_map]
  refine List.map_congr_left fun e he => ?_
  exact (h.name_eq (Table.get?_eq_some_iff.2 he)).1

theorem Reachable.mem_decls_iff (h : R.Reachable) {decl : TypeDecl} :
    decl ∈ R.decls ↔ R.get decl.name = .ok decl := by
  rw [h.decls_eq, get_eq_ok, Table.get?_eq_some_iff, Table.values, List.mem_map]
  constructor
  · intro hmem
    obtain ⟨e, he, rfl⟩ := hmem
    rw [(h.name_eq (Table.get?_eq_some_iff.2 he)).1]
    exact he
  · intro hmem
    exact ⟨_, hmem, rfl⟩

theorem records_run (calls : List Call) : (empty.run calls).Records calls := by
  have hR : (empty.run calls).Reachable := Reachable.empty.run calls
  have hget : ∀ ty, (∃ decl, (empty.run calls).get ty = .ok decl) ↔
      (empty.run calls).contains ty = true := by
    intro ty
    simp only [get_eq_ok, contains_iff]
  refine ⟨hR.names_eq, fun ty decl => hR.name_eq, fun ty => contains_run_iff,
    fun ty => (hget ty).trans contains_run_iff, fun decl => hR.mem_decls_iff, ?_, ?_, ?_, ?_⟩
  · rw [hR.map_name_decls]
    exact Table.keys_increasing _
  · rw [← List.length_map, hR.map_name_decls]
    exact (List.length_map _).symm
  · intro ty decl hd tag args
    rw [TypeDecl.signature_eq_ok, ← signature?_of_get? (get_eq_ok.1 hd), signature?_run_iff]
  · intro ty decl _
    exact Table.keys_increasing _

/-- After every history the registry holds what the accepted calls put there and lists it in order. A
declaration is refused exactly if its name is no identifier or was declared before, an addition exactly
if there is no such type, and a call that is refused is as good as not made. Histories that agree on
the declared names and on the last addition of each constructor lead to one registry, so that every
answer is the same, that of the check included. -/
theorem run_is_decided_by_accepted_calls (calls : List Call) :
    (empty.run calls).Records calls ∧
    (∀ name fault, (empty.run calls).declare name = .error fault ↔
      (name.isIdentifier = false ∧ fault = .invalidName name) ∨
        (name.isIdentifier = true ∧ Declared calls name ∧ fault = .duplicateType name)) ∧
    (∀ ty tag args fault, (empty.run calls).addConstructor ty tag args = .error fault ↔
      ¬ Declared calls ty ∧ fault = .unknownType ty) ∧
    (∀ c fault, (empty.run calls).call c = .error fault →
      ∀ more, empty.run (calls ++ c :: more) = empty.run (calls ++ more)) ∧
    ∀ calls', (∀ name, Declared calls name ↔ Declared calls' name) →
      (∀ ty tag args, LastAdded calls ty tag args ↔ LastAdded calls' ty tag args) →
      empty.run calls = empty.run calls' := by
  refine ⟨records_run calls, ?_, ?_, ?_, ?_⟩
  · intro name fault
    rw [declare_eq_error, contains_run_iff]
  · intro ty tag args fault
    rw [addConstructor_eq_error, ← Bool.not_eq_true, contains_run_iff]
  · intro c fault hc more
    rw [run_append, run_append, run_cons, after_of_error hc]
  · intro calls' hnames hsignatures
    refine (Reachable.empty.run calls).ext (Reachable.empty.run calls') ?_ ?_
    · intro ty
      rw [contains_run_iff, contains_run_iff, hnames]
    · intro ty tag
      refine Option.ext fun args => ?_
      rw [signature?_run_iff, signature?_run_iff, hsignatures]

/-- The natural numbers, declared by way of additions that come too early, are repeated or are
replaced. -/
def detour : List Call :=
  [.addConstructor "Nat" "zero" ["Nat"], .declare "Nat", .addConstructor "Nat" "next" [],
    .declare "a b", .addConstructor "Nat" "next" ["Nat"], .declare "Nat",
    .addConstructor "Nat" "zero" []]

/-- The natural numbers, declared straight away. -/
def straight : List Call :=
  [.declare "Nat", .addConstructor "Nat" "zero" [], .addConstructor "Nat" "next" ["Nat"]]

theorem detour_leads_to_the_same_registry :
    empty.run detour = empty.run straight ∧
    (empty.run detour).declare "Nat" = .error (.duplicateType "Nat") ∧
    empty.run (detour ++ [.declare "Nat"]) = empty.run detour ∧
    ¬ Declared detour "a b" ∧ LastAdded detour "Nat" "next" ["Nat"] := by
  obtain ⟨hdetour, hdeclare, _, hrefused, hsame⟩ := run_is_decided_by_accepted_calls detour
  obtain ⟨hstraight, _⟩ := run_is_decided_by_accepted_calls straight
  have hnat : Declared detour "Nat" := (hdetour.contains_iff "Nat").1 (by decide)
  have hagain : (empty.run detour).declare "Nat" = .error (.duplicateType "Nat") :=
    (hdeclare _ _).2 (.inr ⟨by decide, hnat, rfl⟩)
  refine ⟨hsame straight ?_ ?_, hagain, hrefused (.declare "Nat") _ hagain [], ?_, ?_⟩
  · intro name
    rw [← hdetour.contains_iff, ← hstraight.contains_iff]
    exact Iff.rfl
  · intro ty tag args
    rw [← signature?_run_iff, ← signature?_run_iff]
    exact Iff.rfl
  · rw [← hdetour.contains_iff]
    decide
  · exact (hdetour.signature_iff "Nat" _ rfl "next" ["Nat"]).1 rfl

end DataCalculus.Registry
