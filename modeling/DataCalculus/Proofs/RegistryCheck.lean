import DataCalculus.Registry.History

/-!
# Checked registries

A registry passes its check when every tag is an identifier and every argument type is declared,
over all types and all their constructors. Otherwise the check reports the least of its faults, which
are ordered by type, then by tag, and within one constructor from the tag through the arguments. The
order in which types were declared makes no difference.
-/

namespace DataCalculus.Registry

set_option autoImplicit false

theorem constructorFaults_eq_nil {R : Registry} {ty tag : Name} {args : List Name} :
    R.constructorFaults ty tag args = [] ↔
      tag.isIdentifier = true ∧ ∀ arg ∈ args, R.contains arg = true := by
  have hargs : (args.zipIdx.filterMap fun arg => if R.contains arg.1 then none
      else some (Fault.unknownArgumentType ty tag arg.2 arg.1)) = [] ↔
      ∀ arg ∈ args, R.contains arg = true := by
    simp only [List.filterMap_eq_nil_iff, ite_eq_left_iff, reduceCtorEq, imp_false, Bool.not_eq_true,
      Bool.not_eq_false]
    constructor
    · intro h arg ha
      obtain ⟨index, hi⟩ := List.mem_iff_getElem?.1 ha
      exact h (arg, index) (List.mk_mem_zipIdx_iff_getElem?.2 hi)
    · intro h arg ha
      exact h arg.1 (List.fst_mem_of_mem_zipIdx ha)
  rw [constructorFaults, List.append_eq_nil_iff, hargs]
  cases tag.isIdentifier <;> simp

theorem check_eq_ok {R : Registry} (hR : R.Reachable) : R.check = .ok () ↔
    ∀ ty decl tag signature, R.types.get? ty = some decl →
      decl.constructors.get? tag = some signature →
      tag.isIdentifier = true ∧ ∀ arg ∈ signature, R.contains arg = true := by
  have hcheck : R.check = .ok () ↔ R.faults = [] := by
    unfold check
    cases R.faults <;> simp
  rw [hcheck, faults, hR.decls_eq, Table.values]
  simp only [List.flatMap_eq_nil_iff, constructorFaults_eq_nil, List.mem_map,
    Table.get?_eq_some_iff]
  constructor
  · intro h ty decl tag signature hd hs
    exact h decl ⟨(ty, decl), hd, rfl⟩ (tag, signature) hs
  · rintro h decl ⟨e, he, rfl⟩ c hc
    exact h e.1 e.2 c.1 c.2 he hc

/-- A place of a constructor: its tag, or an argument by its position. -/
inductive Place where
  | tag
  | argument (index : Nat)

/-- The tag comes before the arguments, and these come in their order. -/
def Place.Before : Place → Place → Prop
  | .tag, .argument _ => True
  | .argument i, .argument j => i < j
  | _, .tag => False

/-- A place of a constructor of a type. -/
structure Site where
  ty : Name
  tag : Name
  place : Place

/-- Sites are ordered by type, then by tag, then by place. -/
def Site.Before (a b : Site) : Prop :=
  a.ty < b.ty ∨ (a.ty = b.ty ∧ (a.tag < b.tag ∨ (a.tag = b.tag ∧ a.place.Before b.place)))

/-- What is wrong at a place of a constructor with these arguments. -/
inductive ConstructorFault (R : Registry) (ty tag : Name) (args : List Name) :
    Place → Fault → Prop where
  | tag (odd : tag.isIdentifier = false) : ConstructorFault R ty tag args .tag (.invalidName tag)
  | argument {index : Nat} {arg : Name} (here : args[index]? = some arg)
      (undeclared : R.contains arg = false) :
      ConstructorFault R ty tag args (.argument index) (.unknownArgumentType ty tag index arg)

/-- What is wrong at a site of the registry. -/
def FaultAt (R : Registry) (site : Site) (fault : Fault) : Prop :=
  ∃ args, R.signature? site.ty site.tag = some args ∧
    R.ConstructorFault site.ty site.tag args site.place fault

section LeastFault

variable {R : Registry} {ty tag : Name} {args : List Name} {fault : Fault}

theorem constructorFaults_eq_nil_iff_faultless : R.constructorFaults ty tag args = [] ↔
    ∀ place other, ¬ R.ConstructorFault ty tag args place other := by
  rw [constructorFaults_eq_nil]
  constructor
  · intro h place other hf
    cases hf with
    | tag odd => simp [h.1] at odd
    | argument here undeclared => simp [h.2 _ (List.mem_of_getElem? here)] at undeclared
  · intro h
    constructor
    · cases ht : tag.isIdentifier with
      | true => rfl
      | false => exact absurd (.tag ht) (h _ _)
    · intro arg harg
      obtain ⟨index, hi⟩ := List.mem_iff_getElem?.1 harg
      cases ha : R.contains arg with
      | true => rfl
      | false => exact absurd (.argument hi ha) (h _ _)

/-- Among the arguments the first fault is that of the least position. -/
theorem findSome?_argument :
    (args.zipIdx.findSome? fun arg => if R.contains arg.1 then none
      else some (Fault.unknownArgumentType ty tag arg.2 arg.1)) = some fault ↔
    ∃ index arg, args[index]? = some arg ∧ R.contains arg = false ∧
      fault = .unknownArgumentType ty tag index arg ∧
      ∀ i < index, ∀ a, args[i]? = some a → R.contains a = true := by
  have hincreasing : args.zipIdx.Pairwise fun a b => a.2 < b.2 := by
    rw [← List.pairwise_map, List.zipIdx_map_snd]
    exact List.pairwise_lt_range' 1
  rw [findSome?_eq_some_iff_least (fun a b => Nat.lt_asymm) hincreasing]
  constructor
  · intro h
    obtain ⟨⟨arg, index⟩, hmem, hfound, hleast⟩ := h
    cases ha : R.contains arg with
    | true => simp [ha] at hfound
    | false =>
      simp only [ha, Bool.false_eq_true, ↓reduceIte, Option.some.injEq] at hfound
      refine ⟨index, arg, List.mk_mem_zipIdx_iff_getElem?.1 hmem, ha, hfound.symm, ?_⟩
      intro i hi a hia
      have hnone := hleast (a, i) (List.mk_mem_zipIdx_iff_getElem?.2 hia) hi
      simpa using hnone
  · intro h
    obtain ⟨index, arg, hia, ha, rfl, hleast⟩ := h
    refine ⟨(arg, index), List.mk_mem_zipIdx_iff_getElem?.2 hia, by simp [ha], ?_⟩
    intro x hx hlt
    have hdeclared := hleast x.2 hlt x.1 (List.mk_mem_zipIdx_iff_getElem?.1 hx)
    simp [hdeclared]

theorem head?_constructorFaults : (R.constructorFaults ty tag args).head? = some fault ↔
    ∃ place, R.ConstructorFault ty tag args place fault ∧
      ∀ earlier, earlier.Before place → ∀ other, ¬ R.ConstructorFault ty tag args earlier other := by
  rw [constructorFaults, List.head?_append, List.head?_filterMap]
  cases ht : tag.isIdentifier with
  | false =>
    simp only [Bool.false_eq_true, ↓reduceIte, List.head?_cons, Option.some_or, Option.some.injEq]
    constructor
    · rintro rfl
      exact ⟨.tag, .tag ht, fun earlier hb => by cases earlier <;> cases hb⟩
    · intro h
      obtain ⟨place, hf, hleast⟩ := h
      cases hf with
      | tag => rfl
      | argument => exact absurd (.tag ht) (hleast .tag trivial _)
  | true =>
    simp only [↓reduceIte, List.head?_nil, Option.none_or, findSome?_argument]
    constructor
    · intro h
      obtain ⟨index, arg, hia, ha, rfl, hleast⟩ := h
      refine ⟨.argument index, .argument hia ha, ?_⟩
      intro earlier hb other hf
      cases hf with
      | tag odd => simp [ht] at odd
      | argument here undeclared => simp [hleast _ hb _ here] at undeclared
    · intro h
      obtain ⟨place, hf, hleast⟩ := h
      cases hf with
      | tag odd => simp [ht] at odd
      | @argument index arg here undeclared =>
        refine ⟨index, arg, here, undeclared, rfl, ?_⟩
        intro i hi a hia
        cases ha : R.contains a with
        | true => rfl
        | false => exact absurd (.argument hia ha) (hleast (.argument i) hi _)

/-- The first fault of all comes from the least constructor with a fault, by type and then by
tag. -/
theorem head?_faults (hR : R.Reachable) : R.faults.head? = some fault ↔
    ∃ ty tag args, R.signature? ty tag = some args ∧
      (R.constructorFaults ty tag args).head? = some fault ∧
      ∀ ty' tag' args', R.signature? ty' tag' = some args' →
        ty' < ty ∨ (ty' = ty ∧ tag' < tag) → R.constructorFaults ty' tag' args' = [] := by
  -- The index of a reachable registry leaves out no type, so that the first fault is found by a
  -- search through the types whose test is a search through the tags.
  have hnested : R.faults.head? = R.types.entries.findSome? fun e =>
      e.2.constructors.entries.findSome? fun c => (R.constructorFaults e.2.name c.1 c.2).head? := by
    simp only [faults, hR.decls_eq, Table.values, List.head?_flatMap, List.findSome?_map]
    rfl
  rw [hnested, Table.findSome?_entries]
  constructor
  · intro h
    obtain ⟨ty, decl, hd, hfound, hbefore⟩ := h
    obtain ⟨tag, args, hs, hhead, htags⟩ := Table.findSome?_entries.1 hfound
    have hname : decl.name = ty := (hR.name_eq hd).1
    rw [hname] at hhead
    refine ⟨ty, tag, args, signature?_eq_some.2 ⟨decl, hd, hs⟩, hhead, ?_⟩
    intro ty' tag' args' hs' hlt
    obtain ⟨decl', hd', hs'⟩ := signature?_eq_some.1 hs'
    have hname' : decl'.name = ty' := (hR.name_eq hd').1
    rcases hlt with hlt | ⟨rfl, hlt⟩
    · have hnone := List.findSome?_eq_none_iff.1 (hbefore ty' decl' hd' hlt) (tag', args')
        (Table.get?_eq_some_iff.1 hs')
      rwa [hname', List.head?_eq_none_iff] at hnone
    · rw [hd] at hd'
      obtain rfl := Option.some.inj hd'
      have hnone := htags tag' args' hs' hlt
      rwa [hname, List.head?_eq_none_iff] at hnone
  · intro h
    obtain ⟨ty, tag, args, hs, hhead, hbefore⟩ := h
    obtain ⟨decl, hd, hs⟩ := signature?_eq_some.1 hs
    have hname : decl.name = ty := (hR.name_eq hd).1
    refine ⟨ty, decl, hd, Table.findSome?_entries.2 ?_, ?_⟩
    · refine ⟨tag, args, hs, by rwa [hname], ?_⟩
      intro tag' args' hs' hlt
      rw [hname, List.head?_eq_none_iff]
      exact hbefore ty tag' args' (signature?_eq_some.2 ⟨decl, hd, hs'⟩) (.inr ⟨rfl, hlt⟩)
    · intro ty' decl' hd' hlt
      rw [List.findSome?_eq_none_iff]
      intro c hc
      have hs' : R.signature? ty' c.1 = some c.2 :=
        signature?_eq_some.2 ⟨decl', hd', Table.get?_eq_some_iff.2 hc⟩
      rw [(hR.name_eq hd').1, List.head?_eq_none_iff]
      exact hbefore ty' c.1 c.2 hs' (.inl hlt)

/-- The reported fault is there, and no site before it has one. -/
theorem check_eq_error (hR : R.Reachable) : R.check = .error fault ↔
    ∃ site, R.FaultAt site fault ∧
      ∀ earlier : Site, earlier.Before site → ∀ other, ¬ R.FaultAt earlier other := by
  have hcheck : R.check = .error fault ↔ R.faults.head? = some fault := by
    unfold check
    cases R.faults <;> simp
  rw [hcheck, head?_faults hR]
  constructor
  · intro h
    obtain ⟨ty, tag, args, hs, hhead, hbefore⟩ := h
    obtain ⟨place, hf, hplaces⟩ := head?_constructorFaults.1 hhead
    refine ⟨⟨ty, tag, place⟩, ⟨args, hs, hf⟩, ?_⟩
    rintro ⟨ty', tag', place'⟩ hb other ⟨args', hs', hf'⟩
    have hempty := fun hlt => constructorFaults_eq_nil_iff_faultless.1 (hbefore ty' tag' args' hs' hlt)
    rcases hb with hty | ⟨rfl, htag | ⟨rfl, hplace⟩⟩
    · exact hempty (.inl hty) place' other hf'
    · exact hempty (.inr ⟨rfl, htag⟩) place' other hf'
    · obtain rfl : args = args' := Option.some.inj (hs.symm.trans hs')
      exact hplaces place' hplace other hf'
  · intro h
    obtain ⟨⟨ty, tag, place⟩, ⟨args, hs, hf⟩, hleast⟩ := h
    refine ⟨ty, tag, args, hs, head?_constructorFaults.2 ⟨place, hf, ?_⟩, ?_⟩
    · intro earlier hb other hf'
      exact hleast ⟨ty, tag, earlier⟩ (.inr ⟨rfl, .inr ⟨rfl, hb⟩⟩) other ⟨args, hs, hf'⟩
    · intro ty' tag' args' hs' hlt
      refine constructorFaults_eq_nil_iff_faultless.2 fun place' other hf' => ?_
      refine hleast ⟨ty', tag', place'⟩ ?_ other ⟨args', hs', hf'⟩
      exact hlt.imp_right fun hsame => ⟨hsame.1, .inl hsame.2⟩

/-- The check passes exactly if every tag of every declared type is an identifier and every argument
type is declared. Otherwise it reports the least fault: what it reports is wrong at some site, and at
no site before that one, in the order of types, tags and places, is anything wrong. -/
theorem check_passes_or_reports_least_fault (hR : R.Reachable) :
    (R.check = .ok () ↔ ∀ ty tag args, R.signature? ty tag = some args →
      tag.isIdentifier = true ∧ ∀ arg ∈ args, R.contains arg = true) ∧
    ∀ fault, R.check = .error fault ↔ ∃ site, R.FaultAt site fault ∧
      ∀ earlier : Site, earlier.Before site → ∀ other, ¬ R.FaultAt earlier other := by
  refine ⟨?_, fun fault => check_eq_error hR⟩
  rw [check_eq_ok hR]
  simp only [signature?_eq_some]
  constructor
  · intro h ty tag args hs
    obtain ⟨decl, hd, hs⟩ := hs
    exact h ty decl tag args hd hs
  · intro h ty decl tag args hd hs
    exact h ty tag args ⟨decl, hd, hs⟩

end LeastFault

/-- Two types with four faults, the later type declared first. -/
def muddled : Registry := empty.run
  [.declare "Tree", .addConstructor "Tree" "a b" ["Leaf"], .declare "Nat",
    .addConstructor "Nat" "zero" ["Int"], .addConstructor "Nat" "next" ["Nat", "Int", "Real"]]

theorem muddled_reachable : muddled.Reachable := Reachable.empty.run _

theorem muddled_reports_second_argument_of_next :
    muddled.check = .error (.unknownArgumentType "Nat" "next" 1 "Int") ∧
    ∀ earlier : Site, earlier.Before ⟨"Nat", "next", .argument 1⟩ →
      ∀ other, ¬ muddled.FaultAt earlier other := by
  have hcheck : muddled.check = .error (.unknownArgumentType "Nat" "next" 1 "Int") := rfl
  refine ⟨hcheck, ?_⟩
  obtain ⟨⟨ty, tag, place⟩, ⟨args, _, hf⟩, hleast⟩ :=
    ((check_passes_or_reports_least_fault muddled_reachable).2 _).1 hcheck
  cases hf
  exact hleast

end DataCalculus.Registry
