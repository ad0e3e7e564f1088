import DataCalculus.Proofs.Conflicts

/-!
# The algebra of joins

Joining dependencies is a union that may fail. Whether it succeeds, and with which set, depends only
on which parts there are, not on their order or on how often a part is given, and parts may be joined
in groups. What a failed join reports does depend on the order: it is the first clash, going through
the parts from left to right and through the variables of a part by name. Clashes are stated here by
positions in the list of parts, without the set that is being joined.
-/

namespace DataCalculus.Deps

set_option autoImplicit false

variable {parts before others xs ys : List Deps} {deps : Deps} {name first second : Name}

/-- The type of a variable in the earliest part that has it. -/
def earliestType? (parts : List Deps) (name : Name) : Option Name :=
  parts.findSome? fun part => part.get? name

/-- The part gives a variable another type than one of the parts before it. -/
def Clashes (before : List Deps) (part : Deps) (name : Name) : Prop :=
  ∃ T U, (∃ d ∈ before, d.get? name = some T) ∧ part.get? name = some U ∧ T ≠ U

/-- A variable of the part at position `index` has another type there than in the earliest part that
has it, and no clash comes before this one: none at a smaller position, and at this position none of
a smaller name. -/
structure FirstClash (parts : List Deps) (index : Nat) (name first second : Name) : Prop where
  here : ∃ part, parts[index]? = some part ∧ part.get? name = some second
  earliest : earliestType? (parts.take index) name = some first
  differ : first ≠ second
  least : ∀ i part x, parts[i]? = some part → i < index ∨ (i = index ∧ x < name) →
    ¬ Clashes (parts.take i) part x

/-- Parts agree if none of them clashes with the parts before it. -/
theorem agree_iff_no_clash : Agree parts ↔
    ∀ i part x, parts[i]? = some part → ¬ Clashes (parts.take i) part x := by
  constructor
  · intro h i part x hi hclash
    obtain ⟨T, U, ⟨d, hd, hT⟩, hU, hne⟩ := hclash
    exact hne (h x T U ⟨d, List.mem_of_mem_take hd, hT⟩ ⟨part, List.mem_of_getElem? hi, hU⟩)
  · intro h x T U hT hU
    -- Of two parts with different types for a variable the later one clashes.
    have hlater : ∀ (i j : Nat) (p q : Deps) (T U : Name), parts[i]? = some p →
        parts[j]? = some q → i < j → p.get? x = some T → q.get? x = some U → T = U := by
      intro i j p q T U hi hj hlt hT hU
      have hmem : p ∈ parts.take j := by
        rw [← List.getElem?_take_of_lt hlt] at hi
        exact List.mem_of_getElem? hi
      exact Decidable.byContradiction fun hne => h j q x hj ⟨T, U, ⟨p, hmem, hT⟩, hU, hne⟩
    obtain ⟨p, hp, hT⟩ := hT
    obtain ⟨q, hq, hU⟩ := hU
    obtain ⟨i, hi⟩ := List.mem_iff_getElem?.1 hp
    obtain ⟨j, hj⟩ := List.mem_iff_getElem?.1 hq
    rcases Nat.lt_trichotomy i j with hlt | rfl | hlt
    · exact hlater i j p q T U hi hj hlt hT hU
    · obtain rfl : p = q := Option.some.inj (hi.symm.trans hj)
      exact Option.some.inj (hT.symm.trans hU)
    · exact (hlater j i q p U T hj hi hlt hU hT).symm

/-- Among parts that agree, the earliest type of a variable is its type in any of them. -/
theorem Agree.earliestType?_eq_some (h : Agree before) :
    earliestType? before name = some first ↔ ∃ d ∈ before, d.get? name = some first := by
  constructor
  · intro he
    exact List.exists_of_findSome?_eq_some he
  · intro hd
    cases he : earliestType? before name with
    | none =>
      obtain ⟨d, hd, hfirst⟩ := hd
      rw [List.findSome?_eq_none_iff.1 he d hd] at hfirst
      cases hfirst
    | some T =>
      have hT : ∃ d ∈ before, d.get? name = some T := List.exists_of_findSome?_eq_some he
      rw [h name T first hT hd]

theorem FirstConflict.exists_firstClash (h : FirstConflict parts name first second) :
    ∃ index, FirstClash parts index name first second := by
  obtain ⟨before, part, after, rfl, hconflict⟩ := h
  have htake : (before ++ part :: after).take before.length = before := List.take_left
  refine ⟨before.length, ⟨part, ?_, hconflict.here⟩, ?_, hconflict.differ, ?_⟩
  · rw [List.getElem?_append_right (Nat.le_refl _), Nat.sub_self]
    rfl
  · rw [htake]
    exact hconflict.agree.earliestType?_eq_some.2 hconflict.earlier
  · intro i other x hi hbefore hclash
    rcases hbefore with hlt | ⟨rfl, hlt⟩
    · rw [List.getElem?_append_left hlt] at hi
      rw [List.take_append_of_le_length (Nat.le_of_lt hlt)] at hclash
      exact agree_iff_no_clash.1 hconflict.agree i other x hi hclash
    · rw [List.getElem?_append_right (Nat.le_refl _), Nat.sub_self] at hi
      obtain rfl : part = other := Option.some.inj hi
      rw [htake] at hclash
      obtain ⟨T, U, hT, hU, hne⟩ := hclash
      exact hne (hconflict.least x T U hlt hT hU)

theorem FirstClash.firstConflict {index : Nat} (h : FirstClash parts index name first second) :
    FirstConflict parts name first second := by
  obtain ⟨part, hpart, hsecond⟩ := h.here
  obtain ⟨hindex, rfl⟩ := List.getElem?_eq_some_iff.1 hpart
  have hagree : Agree (parts.take index) := by
    refine agree_iff_no_clash.2 fun i other x hi hclash => ?_
    rw [List.getElem?_take, Option.ite_none_right_eq_some] at hi
    obtain ⟨hlt, hi⟩ := hi
    rw [List.take_take, Nat.min_eq_left (Nat.le_of_lt hlt)] at hclash
    exact h.least i other x hi (.inl hlt) hclash
  refine ⟨parts.take index, parts[index], parts.drop (index + 1), ?_, hagree, ?_, hsecond,
    h.differ, ?_⟩
  · rw [List.getElem_cons_drop, List.take_append_drop]
  · exact hagree.earliestType?_eq_some.1 h.earliest
  · intro x T U hlt hT hU
    have hleast := h.least index _ x hpart (.inr ⟨rfl, hlt⟩)
    exact Decidable.byContradiction fun hne => hleast ⟨T, U, hT, hU, hne⟩

/-- A failed join reports the first clash. -/
theorem union_eq_error_iff_firstClash {fault : Fault} : union parts = .error fault ↔
    ∃ index name first second, FirstClash parts index name first second ∧
      fault = .inconsistentVariable name first second := by
  rw [union_eq_error]
  constructor
  · intro h
    obtain ⟨name, first, second, hconflict, hfault⟩ := h
    obtain ⟨index, hclash⟩ := hconflict.exists_firstClash
    exact ⟨index, name, first, second, hclash, hfault⟩
  · intro h
    obtain ⟨index, name, first, second, hclash, hfault⟩ := h
    exact ⟨name, first, second, hclash.firstConflict, hfault⟩

/-- A join depends on which parts there are only. -/
theorem union_eq_ok_congr (h : ∀ d, d ∈ others ↔ d ∈ parts) :
    union others = .ok deps ↔ union parts = .ok deps := by
  rw [union_eq_ok, union_eq_ok]
  simp only [h]

theorem Agree.of_subset (h : Agree parts) (hsub : ∀ d ∈ others, d ∈ parts) : Agree others := by
  intro x T U hT hU
  obtain ⟨d, hd, hT⟩ := hT
  obtain ⟨e, he, hU⟩ := hU
  exact h x T U ⟨d, hsub d hd, hT⟩ ⟨e, hsub e he, hU⟩

/-- Parts that can be joined can be joined in two groups. -/
theorem union_append_eq_ok (h : union (xs ++ ys) = .ok deps) :
    ∃ a b, union xs = .ok a ∧ union ys = .ok b ∧ union [a, b] = .ok deps := by
  have hagree : Agree (xs ++ ys) := exists_union_iff.1 ⟨deps, h⟩
  obtain ⟨a, ha⟩ := exists_union_iff.2 (hagree.of_subset fun d hd => List.mem_append_left ys hd)
  obtain ⟨b, hb⟩ := exists_union_iff.2 (hagree.of_subset fun d hd => List.mem_append_right xs hd)
  refine ⟨a, b, ha, hb, union_eq_ok.2 fun x T => ?_⟩
  rw [union_eq_ok.1 h]
  simp only [List.mem_append, List.mem_cons, List.not_mem_nil, or_false, or_and_right, exists_or,
    exists_eq_left, union_eq_ok.1 ha, union_eq_ok.1 hb]

/-- Parts can be joined exactly if no variable has two types in them, and then the join has the
variables of all parts. So it stays the same when parts are reordered or repeated, and when they are
joined in two groups first. A join that fails reports the first clash. -/
theorem union_joins_or_reports_first_clash (parts : List Deps) :
    ((∃ deps, union parts = .ok deps) ↔ Agree parts) ∧
    (∀ deps, union parts = .ok deps ↔
      ∀ x T, deps.get? x = some T ↔ ∃ part ∈ parts, part.get? x = some T) ∧
    (∀ others deps, (∀ d, d ∈ others ↔ d ∈ parts) →
      (union others = .ok deps ↔ union parts = .ok deps)) ∧
    (∀ xs ys deps, parts = xs ++ ys → union parts = .ok deps →
      ∃ a b, union xs = .ok a ∧ union ys = .ok b ∧ union [a, b] = .ok deps) ∧
    ∀ fault, union parts = .error fault ↔
      ∃ index name first second, FirstClash parts index name first second ∧
        fault = .inconsistentVariable name first second := by
  refine ⟨exists_union_iff, fun deps => union_eq_ok, fun others deps => union_eq_ok_congr, ?_,
    fun fault => union_eq_error_iff_firstClash⟩
  rintro xs ys deps rfl h
  exact union_append_eq_ok h

/-- Of two clashes in one part the one with the smaller name is reported, although the other one is
with an earlier part. Without that part there is no clash, and the rest can be joined in groups. -/
theorem clash_of_smaller_name_is_reported :
    let x : Deps := .single "x" "Nat"
    let a : Deps := .single "a" "Nat"
    let both : Deps := .insert (.single "a" "Bool") "x" "Bool"
    (∃ index, FirstClash [x, a, both] index "a" "Nat" "Bool") ∧
    union [a, x, a] = .ok (x.insert "a" "Nat") ∧
    ∃ b c, union [x] = .ok b ∧ union [a] = .ok c ∧ union [b, c] = .ok (x.insert "a" "Nat") := by
  intro x a both
  have hfails : union [x, a, both] = .error (.inconsistentVariable "a" "Nat" "Bool") := rfl
  have hjoin : union [x, a] = .ok (x.insert "a" "Nat") := rfl
  obtain ⟨_, _, hsame, hgroups, _⟩ := union_joins_or_reports_first_clash [x, a]
  refine ⟨?_, ?_, hgroups [x] [a] _ rfl hjoin⟩
  · obtain ⟨index, name, first, second, hclash, hfault⟩ :=
      ((union_joins_or_reports_first_clash [x, a, both]).2.2.2.2 _).1 hfails
    cases hfault
    exact ⟨index, hclash⟩
  · refine (hsame [a, x, a] _ ?_).2 hjoin
    intro d
    simp only [List.mem_cons, List.not_mem_nil, or_false]
    exact or_iff_right_of_imp .inr

end DataCalculus.Deps
