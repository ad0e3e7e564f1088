import DataCalculus.Proofs.JsonText
import DataCalculus.Proofs.RoundTrip

/-!
# Terms as text

Over a checked registry a built term is written as a text that is read back as the term, as long as
its surface form is nested no deeper than JSON text may be. Beyond that the text is refused as a
whole, before any of it is looked at as a term.
-/

namespace DataCalculus

set_option autoImplicit false

variable {R : Registry}

theorem Term.toJsons_eq_map (ts : List Term) : toJsons ts = ts.map toJson := by
  induction ts with
  | nil => rfl
  | cons t ts ih => rw [toJsons, ih, List.map_cons]

theorem Func.toFields_eq_map (branches : List (Name × Func)) :
    toFields branches = branches.map fun b => (b.1, b.2.toJson) := by
  induction branches with
  | nil => rfl
  | cons b branches ih => rw [toFields, ih, List.map_cons]

/-- An array of canonical trees with a string in front, as most surface forms are. -/
theorem Json.Canonical.headed {items : List Json} (head : String)
    (h : ∀ item ∈ items, item.Canonical) : (Json.arr (.str head :: items)).Canonical :=
  .arr (List.forall_mem_cons.2 ⟨.str head, h⟩)

theorem Term.canonical_toJsons {args : List Term} (h : ∀ arg ∈ args, arg.toJson.Canonical) :
    ∀ item ∈ toJsons args, item.Canonical := by
  rw [toJsons_eq_map]
  exact List.forall_mem_map.2 h

/-- The tags of a case analysis are in order, and so are the keys that it is written with. -/
theorem Func.canonical_toFields {branches : List (Name × Func)} (ordered : Entries.Ordered branches)
    (h : ∀ b ∈ branches, b.2.toJson.Canonical) : (Json.obj (toFields branches)).Canonical := by
  rw [toFields_eq_map]
  refine .obj (List.pairwise_map.2 ordered) ?_
  exact List.forall_mem_map.2 h

/-- Surface forms of built terms and functions are canonical trees. -/
theorem canonical_toJson (hR : R.Reachable) :
    (∀ t : Term, t.Built R → t.toJson.Canonical) ∧
      ∀ f : Func, f.Built R → f.toJson.Canonical := by
  refine Term.induct ?free ?construct ?func ?call ?caseOf ?mk
  case free =>
    intro name ty _
    exact .str _
  case construct =>
    intro ty tag args deps ih h
    obtain ⟨_, hargs, _⟩ := h.checked hR
    exact .headed _ (Term.canonical_toJsons fun arg ha => ih arg ha (hargs arg ha))
  case func =>
    intro f ih h
    exact ih (h.checked hR)
  case call =>
    intro f args deps ihf iha h
    obtain ⟨hf, hargs, _⟩ := h.checked hR
    refine .headed _ (List.forall_mem_cons.2 ⟨ihf hf, ?_⟩)
    exact Term.canonical_toJsons fun arg ha => iha arg ha (hargs arg ha)
  case caseOf =>
    intro ty scrutinee branches deps iht ihb h
    obtain ⟨ht, hbranches, hordered, _⟩ := h.checked hR
    have hobj := Func.canonical_toFields hordered fun b hb => ihb b hb (hbranches b hb)
    exact .headed _ (List.forall_mem_cons.2 ⟨iht ht, List.forall_mem_singleton.2 hobj⟩)
  case mk =>
    intro params body deps ih h
    have hparams : (Json.arr (params.map Param.toJson)).Canonical :=
      .arr (List.forall_mem_map.2 fun p _ => .str p.display)
    exact .arr (List.forall_mem_cons.2 ⟨hparams, List.forall_mem_singleton.2 (ih h.checked.body)⟩)

/-- What reading a text does is decided by the nesting of the tree alone, if the tree is read as
the term. -/
theorem Registry.readText_of_canonical {t : Term} (hcanonical : t.toJson.Canonical)
    (hread : R.readTerm t.toJson = .ok t) :
    R.readText t.text =
      if t.toJson.nesting ≤ Json.maxNesting then .ok t else .error .malformedText := by
  rw [readText, Term.text, Json.ofText?, hcanonical.ofTextWithin?_text]
  by_cases hn : t.toJson.nesting ≤ Json.maxNesting
  · rw [if_pos hn, if_pos hn]
    exact hread
  · rw [if_neg hn, if_neg hn]

/-- Over a checked registry the text of a built term is read back as the term if arrays and objects
stand at most 127 deep within each other, and is no readable JSON text if they stand deeper. -/
theorem readText_text (hR : R.Reachable) (hcheck : R.check = .ok ()) {t : Term} (ht : t.Built R) :
    (t.toJson.nesting ≤ 127 → R.readText t.text = .ok t) ∧
    (128 ≤ t.toJson.nesting → R.readText t.text = .error .malformedText) := by
  have hread : R.readTerm t.toJson = .ok t := by
    rw [(Registry.read_toJson hR).1 t ht]
    exact readBack_eq_ok (ht.constructors_isIdentifier hR hcheck) t
  rw [Registry.readText_of_canonical ((canonical_toJson hR).1 t ht) hread]
  refine ⟨?_, ?_⟩
  · intro hn
    exact if_pos hn
  · intro hn
    exact if_neg (Nat.not_le.2 hn)

/-- A natural number, as a value of its own. -/
def Value.numeral : Nat → Value
  | 0 => .mk "Nat" "zero" []
  | n + 1 => .mk "Nat" "next" [numeral n]

theorem Value.numeral_built (n : Nat) : (numeral n).Built .naturals := by
  induction n with
  | zero =>
    have hz : Registry.naturals.value "Nat" "zero" [] = .ok (numeral 0) := rfl
    exact .mk (fun arg ha => absurd ha List.not_mem_nil) hz
  | succ n ih =>
    have hty : (numeral n).ty = "Nat" := by cases n <;> rfl
    have hn : Registry.naturals.value "Nat" "next" [numeral n] = .ok (numeral (n + 1)) := by
      refine Registry.value_eq_ok.2 ⟨_, rfl, ?_, rfl⟩
      rw [List.map_singleton, hty]
      rfl
    exact .mk (List.forall_mem_singleton.2 ih) hn

theorem nesting_numeral (n : Nat) : (Term.constant (.numeral n)).toJson.nesting = n + 1 := by
  induction n with
  | zero => rfl
  | succ n ih =>
    have hnext : (Term.constant (.numeral (n + 1))).toJson.nesting =
        max 0 (max (Term.constant (.numeral n)).toJson.nesting 0) + 1 := rfl
    rw [hnext, ih]
    omega

/-- Both sides of the boundary: each number is nested one deeper than the number before it. -/
theorem numerals_are_read_up_to_the_nesting_limit :
    Registry.naturals.readText (Term.constant (.numeral 126)).text =
      .ok (Term.constant (.numeral 126)) ∧
    Registry.naturals.readText (Term.constant (.numeral 127)).text = .error .malformedText := by
  have hcheck : Registry.naturals.check = .ok () := rfl
  have hbuilt : ∀ n, (Term.constant (.numeral n)).Built .naturals := fun n =>
    .constant (Value.numeral_built n)
  refine ⟨?_, ?_⟩
  · refine (readText_text Registry.naturals_reachable hcheck (hbuilt 126)).1 ?_
    exact Nat.le_of_eq (nesting_numeral 126)
  · refine (readText_text Registry.naturals_reachable hcheck (hbuilt 127)).2 ?_
    exact Nat.le_of_eq (nesting_numeral 127).symm

end DataCalculus
