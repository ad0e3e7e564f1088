import DataCalculus.Proofs.Reading
import DataCalculus.Term.Equality

/-!
# Normal forms of surface trees

Reading and writing again changes nothing but the blanks around the colons of typed variables: a
tree and its normal form are read as the same term, and the term is written as the normal form. The
faults of trees that are refused may differ, since they quote the tree.
-/

namespace DataCalculus

set_option autoImplicit false

/-- A string that spells a typed variable without the blanks, and any other string as it is. -/
def Surface.normalString (s : String) : String :=
  match typedName? s with
  | some (name, ty) => name ++ ":" ++ ty
  | none => s

mutual

/-- The tree with every typed variable in it written without blanks. The keys of objects are left as
they are. -/
def Json.normal : Json → Json
  | .str s => .str (Surface.normalString s)
  | .arr items => .arr (Json.normalItems items)
  | .obj fields => .obj (Json.normalFields fields)
  | .null => .null
  | .bool b => .bool b
  | .num n => .num n

def Json.normalItems : List Json → List Json
  | [] => []
  | item :: items => item.normal :: Json.normalItems items

def Json.normalFields : List (String × Json) → List (String × Json)
  | [] => []
  | (key, value) :: fields => (key, value.normal) :: Json.normalFields fields

end

namespace Surface

theorem SpellsVariable.normalString_eq {s : String} {name ty : Name}
    (h : SpellsVariable s name ty) : normalString s = name ++ ":" ++ ty := by
  rw [normalString, typedName?_eq_some_iff.2 h]

theorem normalString_eq_self {s : String} (h : ∀ name ty, ¬ SpellsVariable s name ty) :
    normalString s = s := by
  have hnone : typedName? s = none := by
    rw [Option.eq_none_iff_forall_ne_some]
    intro parts hs
    obtain ⟨name, ty⟩ := parts
    exact h name ty (typedName?_eq_some_iff.1 hs)
  rw [normalString, hnone]

theorem typedName?_normalString (s : String) : typedName? (normalString s) = typedName? s := by
  cases hs : typedName? s with
  | none => rw [normalString, hs, hs]
  | some parts =>
    have hv : SpellsVariable s parts.1 parts.2 := typedName?_eq_some_iff.1 hs
    rw [hv.normalString_eq]
    exact typedName?_spelled hv.name_identifier hv.ty_identifier

/-- Neither a typed variable nor its normal form is a head. -/
theorem ofString?_normalString (s : String) :
    Head.ofString? (normalString s) = Head.ofString? s := by
  cases hs : typedName? s with
  | none => rw [normalString, hs]
  | some parts =>
    have hn : typedName? (normalString s) = some parts := (typedName?_normalString s).trans hs
    have hv : SpellsVariable s parts.1 parts.2 := typedName?_eq_some_iff.1 hs
    have hv' : SpellsVariable (normalString s) parts.1 parts.2 := typedName?_eq_some_iff.1 hn
    rw [hv.ofString?_eq_none, hv'.ofString?_eq_none]

theorem normalString_of_head {s : String} {head : Head} (h : Head.ofString? s = some head) :
    normalString s = s := by
  apply normalString_eq_self
  intro name ty hv
  rw [hv.ofString?_eq_none] at h
  cases h

end Surface

namespace Json

theorem normalItems_eq_map (items : List Json) : normalItems items = items.map normal := by
  induction items with
  | nil => rfl
  | cons item items ih => rw [normalItems, ih, List.map_cons]

theorem normalFields_eq_map (fields : List (String × Json)) :
    normalFields fields = fields.map fun b => (b.1, b.2.normal) := by
  induction fields with
  | nil => rfl
  | cons b fields ih => rw [normalFields, ih, List.map_cons]

theorem normal_eq_arr {j : Json} {xs : List Json} :
    j.normal = .arr xs ↔ ∃ items, j = .arr items ∧ items.map normal = xs := by
  cases j <;> simp [normal, normalItems_eq_map]

theorem normal_eq_obj {j : Json} {xs : List (String × Json)} :
    j.normal = .obj xs ↔
      ∃ fields, j = .obj fields ∧ fields.map (fun b => (b.1, b.2.normal)) = xs := by
  cases j <;> simp [normal, normalFields_eq_map]

end Json

namespace Registry

variable {R : Registry}

theorem readParam_normal (j : Json) (p : Param) :
    R.readParam j.normal = .ok p ↔ R.readParam j = .ok p := by
  cases j with
  | str s =>
    rw [Json.normal, readParam, readParam, Surface.typedName?_normalString]
    cases Surface.typedName? s <;> simp
  | null | bool | num | arr | obj => simp [Json.normal, readParam]

/-- Lists of trees are read alike if their items are. -/
theorem forall₂_normal {α : Type} {read : Json → α → Prop} {items : List Json} {as : List α}
    (h : ∀ j ∈ items, ∀ a, read j.normal a ↔ read j a) :
    List.Forall₂ read (items.map Json.normal) as ↔ List.Forall₂ read items as := by
  induction items generalizing as with
  | nil => rfl
  | cons j items ih =>
    obtain ⟨hj, hitems⟩ := List.forall_mem_cons.1 h
    simp only [List.map_cons, List.forall₂_cons_left_iff, hj, ih hitems]

theorem readTerms_normal {items : List Json}
    (h : ∀ j ∈ items, ∀ t, R.readTerm j.normal = .ok t ↔ R.readTerm j = .ok t) (args : List Term) :
    List.Forall₂ (fun j t => R.readTerm j = .ok t) (items.map Json.normal) args ↔
      List.Forall₂ (fun j t => R.readTerm j = .ok t) items args := forall₂_normal h

theorem readBranches_normal {fields : List (String × Json)}
    (h : ∀ b ∈ fields, ∀ f, R.readLiteral b.2.normal = .ok f ↔ R.readLiteral b.2 = .ok f)
    (branches : Entries Func) :
    List.Forall₂ (fun a b => a.1 = b.1 ∧ R.readLiteral a.2 = .ok b.2)
        (fields.map fun b => (b.1, b.2.normal)) branches ↔
      List.Forall₂ (fun a b => a.1 = b.1 ∧ R.readLiteral a.2 = .ok b.2) fields branches := by
  induction fields generalizing branches with
  | nil => rfl
  | cons a fields ih =>
    obtain ⟨ha, hfields⟩ := List.forall_mem_cons.1 h
    simp only [List.map_cons, List.forall₂_cons_left_iff, ha, ih hfields]

theorem readLiteral_normal {items : List Json}
    (h : ∀ j ∈ items, ∀ t, R.readTerm j.normal = .ok t ↔ R.readTerm j = .ok t) (f : Func) :
    R.readLiteral (.arr (items.map Json.normal)) = .ok f ↔ R.readLiteral (.arr items) = .ok f := by
  have hparams : ∀ params ps, List.Forall₂ (fun p q => R.readParam p = .ok q)
      (params.map Json.normal) ps ↔ List.Forall₂ (fun p q => R.readParam p = .ok q) params ps :=
    fun params ps => forall₂_normal fun p _ q => readParam_normal p q
  simp only [readLiteral_eq_ok, Json.arr.injEq]
  constructor
  · intro hr
    obtain ⟨params, body, ps, b, he, hps, hb, hf⟩ := hr
    obtain ⟨first, rest, rfl, hfirst, hrest⟩ := List.map_eq_cons_iff.1 he
    obtain ⟨last, tail, rfl, rfl, htail⟩ := List.map_eq_cons_iff.1 hrest
    obtain rfl := List.map_eq_nil_iff.1 htail
    obtain ⟨params, rfl, rfl⟩ := Json.normal_eq_arr.1 hfirst
    exact ⟨params, last, ps, b, rfl, (hparams params ps).1 hps, (h last (by simp) b).1 hb, hf⟩
  · intro hr
    obtain ⟨params, body, ps, b, he, hps, hb, hf⟩ := hr
    subst he
    refine ⟨params.map Json.normal, body.normal, ps, b, ?_, (hparams params ps).2 hps,
      (h body (by simp) b).2 hb, hf⟩
    rw [List.map_cons, List.map_singleton, Json.normal, Json.normalItems_eq_map]

/-- Normal forms of arrays with a head are read alike if their parts are. -/
theorem readForm_normal {s : String} {items : List Json}
    (hterm : ∀ j ∈ items, ∀ t, R.readTerm j.normal = .ok t ↔ R.readTerm j = .ok t)
    (hliteral : ∀ j ∈ items, ∀ f, R.readLiteral j.normal = .ok f ↔ R.readLiteral j = .ok f)
    (hfields : ∀ fields, .obj fields ∈ items → ∀ b ∈ fields, ∀ f,
      R.readLiteral b.2.normal = .ok f ↔ R.readLiteral b.2 = .ok f) (t : Term) :
    R.readForm (.str (Surface.normalString s) :: items.map Json.normal) = .ok t ↔
      R.readForm (.str s :: items) = .ok t := by
  have hhead := Surface.ofString?_normalString s
  cases hs : Surface.Head.ofString? s with
  | none =>
    rw [hs] at hhead
    rw [readForm_unknown hs, readForm_unknown hhead]
    simp
  | some head =>
    rw [hs] at hhead
    cases head with
    | construct ty tag =>
      simp only [readForm_construct_eq_ok hs, readForm_construct_eq_ok hhead,
        readTerms_normal hterm]
    | call ty =>
      simp only [readForm_call_eq_ok hs, readForm_call_eq_ok hhead]
      cases items with
      | nil => simp
      | cons literal rest =>
        obtain ⟨_, hrest⟩ := List.forall_mem_cons.1 hterm
        obtain ⟨hfirst, _⟩ := List.forall_mem_cons.1 hliteral
        simp only [List.map_cons, List.cons.injEq, and_assoc, exists_and_left, exists_eq_left',
          hfirst, readTerms_normal hrest]
    | caseOf ty =>
      simp only [readForm_caseOf_eq_ok hs, readForm_caseOf_eq_ok hhead]
      constructor
      · intro hr
        obtain ⟨scrutinee, fields, u, branches, he, hu, hbranches, ht⟩ := hr
        obtain ⟨first, rest, rfl, rfl, hrest⟩ := List.map_eq_cons_iff.1 he
        obtain ⟨last, tail, rfl, hlast, htail⟩ := List.map_eq_cons_iff.1 hrest
        obtain rfl := List.map_eq_nil_iff.1 htail
        obtain ⟨fields, rfl, rfl⟩ := Json.normal_eq_obj.1 hlast
        exact ⟨first, fields, u, branches, rfl, (hterm first (by simp) u).1 hu,
          (readBranches_normal (hfields fields (by simp)) branches).1 hbranches, ht⟩
      · intro hr
        obtain ⟨scrutinee, fields, u, branches, he, hu, hbranches, ht⟩ := hr
        subst he
        refine ⟨scrutinee.normal, _, u, branches, ?_, (hterm scrutinee (by simp) u).2 hu,
          (readBranches_normal (hfields fields (by simp)) branches).2 hbranches, ht⟩
        simp [Json.normal, Json.normalFields_eq_map]

/-- A tree and its normal form are read as the same terms and literals. -/
theorem read_normal (j : Json) :
    (∀ t, R.readTerm j.normal = .ok t ↔ R.readTerm j = .ok t) ∧
      ∀ f, R.readLiteral j.normal = .ok f ↔ R.readLiteral j = .ok f := by
  induction j using Json.induct with
  | flat j hj =>
    have hliteral : ∀ f, R.readLiteral j.normal = .ok f ↔ R.readLiteral j = .ok f := by
      intro f
      cases j with
      | arr items => exact absurd rfl (hj items)
      | null | bool | num | str | obj => simp [Json.normal, readLiteral]
    refine ⟨fun t => ?_, hliteral⟩
    cases j with
    | arr items => exact absurd rfl (hj items)
    | null | bool | num | obj => simp [Json.normal, readTerm]
    | str s =>
      rw [Json.normal, readTerm, readTerm, Surface.typedName?_normalString]
      cases Surface.typedName? s <;> simp
  | arr items hitems hfields =>
    have hterm : ∀ j ∈ items, ∀ t, R.readTerm j.normal = .ok t ↔ R.readTerm j = .ok t :=
      fun j hj => (hitems j hj).1
    have hliteral := readLiteral_normal hterm
    rw [Json.normal, Json.normalItems_eq_map]
    refine ⟨fun t => ?_, hliteral⟩
    cases items with
    | nil => rfl
    | cons first rest =>
      cases first with
      | null | bool | num | obj => simp [Json.normal, readTerm, readForm]
      | arr params =>
        rw [List.map_cons, Json.normal] at hliteral ⊢
        simp only [readTerm_literal, Fault.bind_eq_ok, hliteral]
      | str s =>
        rw [List.map_cons, Json.normal, readTerm, readTerm]
        refine readForm_normal (fun j hj => hterm j (by simp [hj])) ?_ ?_ t
        · intro j hj
          exact (hitems j (by simp [hj])).2
        · intro fields hf b hb
          exact (hfields fields (by simp [hf]) b hb).2

end Registry

theorem Term.toJsons_eq_normal {items : List Json} {args : List Term}
    (h : List.Forall₂ (fun j t => t.toJson = j.normal) items args) :
    toJsons args = items.map Json.normal := by
  induction h with
  | nil => rfl
  | cons hfirst _ ih => rw [toJsons, List.map_cons, hfirst, ih]

theorem Func.toFields_eq_normal {fields : List (String × Json)} {branches : List (Name × Func)}
    (h : List.Forall₂ (fun a b => a.1 = b.1 ∧ b.2.toJson = a.2.normal) fields branches) :
    toFields branches = fields.map fun b => (b.1, b.2.normal) := by
  induction h with
  | nil => rfl
  | cons hfirst _ ih => rw [toFields, List.map_cons, hfirst.1, hfirst.2, ih]

namespace Registry

variable {R : Registry}

theorem toJson_of_readParam (hR : R.Reachable) {j : Json} {p : Param}
    (h : R.readParam j = .ok p) : p.toJson = j.normal := by
  obtain ⟨⟨s, rfl, hv⟩, _⟩ := (readParam_eq_ok hR).1 h
  rw [Param.toJson, Param.display, Json.normal, hv.normalString_eq]

theorem toJsons_of_readParams (hR : R.Reachable) {params : List Json} {ps : List Param}
    (h : List.Forall₂ (fun p q => R.readParam p = .ok q) params ps) :
    ps.map Param.toJson = params.map Json.normal := by
  induction h with
  | nil => rfl
  | cons hp _ ih => rw [List.map_cons, List.map_cons, toJson_of_readParam hR hp, ih]

theorem normal_head {s : String} {head : Surface.Head} (h : Surface.Head.ofString? s = some head) :
    (Json.str s).normal = .str head.spelling := by
  rw [Json.normal, Surface.normalString_of_head h, (Surface.Head.ofString?_eq_some_iff.1 h).spelled]

/-- What was read is written as the normal form of the tree that it was read from. -/
theorem toJson_of_read (hR : R.Reachable) :
    (∀ j t, R.readTerm j = .ok t → t.toJson = j.normal) ∧
      ∀ j f, R.readLiteral j = .ok f → f.toJson = j.normal := by
  refine read_induct ?free ?construct ?func ?call ?caseOf ?mk
  case free =>
    intro s name ty t hs hfree
    obtain ⟨_, decl, hd, rfl⟩ := free_eq_ok.1 hfree
    have hv := Surface.typedName?_eq_some_iff.1 hs
    rw [Term.toJson, Json.normal, hv.normalString_eq, (hR.name_eq hd).1]
  case construct =>
    intro s ty tag items args t hs hargs hbuild
    obtain ⟨decl, _, _, hd, _, _, _, rfl⟩ := construct_eq_ok.1 hbuild
    rw [Term.toJson, (hR.name_eq hd).1, Term.toJsons_eq_normal hargs, Json.normal,
      Json.normalItems_eq_map, List.map_cons, normal_head hs]
  case func =>
    intro j f hf
    exact hf
  case call =>
    intro s ty decl literal f items args t hs hd hf hargs hbuild hty
    obtain ⟨_, _, _, rfl⟩ := Func.call_eq_ok.1 hbuild
    have hresult : f.ty = ty := hty.trans (hR.name_eq hd).1
    rw [Term.toJson, hresult, hf, Term.toJsons_eq_normal hargs, Json.normal,
      Json.normalItems_eq_map, List.map_cons, List.map_cons, normal_head hs]
  case caseOf =>
    intro s ty scrutinee u fields branches t hs hu hbranches hbuild
    obtain ⟨result, _, _, hr, _, _, _, rfl⟩ := caseOf_eq_ok_iff.1 hbuild
    have hobj : (Json.obj fields).normal = .obj (Func.toFields branches) := by
      rw [Json.normal, Json.normalFields_eq_map, Func.toFields_eq_normal hbranches]
    rw [Term.toJson, (hR.name_eq hr).1, hu, Json.normal, Json.normalItems_eq_map, ← hobj,
      List.map_cons, List.map_cons, List.map_singleton, normal_head hs]
  case mk =>
    intro params body ps b f hps hb hbuild
    obtain ⟨_, _, rfl⟩ := Func.build_eq_ok.1 hbuild
    rw [Func.toJson, hb, toJsons_of_readParams hR hps, Json.normal, Json.normalItems_eq_map,
      List.map_cons, List.map_singleton, Json.normal, Json.normalItems_eq_map]

end Registry

/-- A tree and its normal form are read as the same term, and that term is written as the normal
form, from which it is read again. -/
theorem readTerm_normal {R : Registry} (hR : R.Reachable) (j : Json) (t : Term) :
    (R.readTerm j = .ok t ↔ R.readTerm j.normal = .ok t) ∧
    (R.readTerm j = .ok t → t.toJson = j.normal ∧ R.readTerm t.toJson = .ok t) := by
  have hiff : R.readTerm j = .ok t ↔ R.readTerm j.normal = .ok t :=
    ((Registry.read_normal j).1 t).symm
  refine ⟨hiff, ?_⟩
  intro h
  have hwritten := (Registry.toJson_of_read hR).1 j t h
  rw [hwritten]
  exact ⟨rfl, hiff.1 h⟩

/-- The predecessor with blanks around its colons, one of them no ASCII character. -/
def Json.spacedPredecessor : Json :=
  .arr [.str "Nat<-match", .str "n  : Nat",
    .obj [("next", .arr [.arr [.str "m :\tNat"], .str "m:\u2003Nat"]),
      ("zero", .arr [.arr [], .arr [.str "Nat.zero"]])]]

theorem spaced_predecessor_is_normalised :
    Registry.naturals.readTerm .spacedPredecessor = .ok .predecessor ∧
    Registry.naturals.readTerm Json.spacedPredecessor.normal = .ok .predecessor ∧
    Term.predecessor.toJson = Json.spacedPredecessor.normal ∧
    Json.spacedPredecessor.normal ≠ .spacedPredecessor := by
  have hsome : (Registry.naturals.readTerm .spacedPredecessor).toOption = some .predecessor := by
    decide +kernel
  have hread : Registry.naturals.readTerm .spacedPredecessor = .ok .predecessor := by
    cases hr : Registry.naturals.readTerm .spacedPredecessor with
    | ok t =>
      rw [hr] at hsome
      exact congrArg Except.ok (Option.some.inj hsome)
    | error fault =>
      rw [hr] at hsome
      cases hsome
  have h := readTerm_normal Registry.naturals_reachable .spacedPredecessor .predecessor
  exact ⟨hread, h.1.1 hread, (h.2 hread).1, by decide +kernel⟩

end DataCalculus
